import Dockerset.GeoSni.HttpHead

/-!
# Forwarding a client (`handleHTTPConn`, `handleTLSConn`)

A client's bytes reach the upstream connection in three pieces: the head that
was read to find the host, what the `bufio.Reader` has read beyond it, and what
`pipeAndLog` copies from the connection itself. `forward_written` puts them
together again; it needs no more than that every read of the head `Took` what it
returned.
-/

namespace Dockerset.GeoSni
open Go Logic

/-- `dialViaProxy(proxyURI, host, port)`, where `scheme` is what `url.Parse` finds in
the URI. -/
def dialViaProxy (scheme : Option Bytes) (host : Bytes) (port : Nat) : NetM Unit :=
  match scheme with
  | none => throw .uri
  | some s =>
    if s = ascii "socks5" ∨ s = ascii "socks5h" then dialSOCKS5 host port
    else if s = ascii "http" then dialHTTPProxy host port
    else if s = ascii "https" then dialHTTPProxy host port
    else throw (.text (ascii "unsupported scheme: " ++ s))

/-- The two connections of a client. -/
structure Session where
  client : Conn
  upstream : Conn

/-- How a handler ends. -/
inductive Outcome where
  | readError
  | notHandshake
  | panicked
  | noHost
  | dialError (e : NetErr)
  | forwarded (host : Bytes)
deriving DecidableEq

/-- `pipeAndLog(client, upstream, ..)`. The two copies share nothing: each reads
one connection and writes the other. -/
def pipeAndLog (client upstream : Conn) : Session where
  client := ioCopyConn client upstream.feed
  upstream := ioCopyConn upstream client.feed

/-- The end of both handlers: the head, the bytes in the reader, and the rest. -/
def forward (head : Bytes) (br : Reader) (client pc : Conn) : Session :=
  let pc := if head.length > 0 then tryWrite head pc else pc
  let pc := if br.buf.length > 0 then tryWrite br.buf pc else pc
  pipeAndLog { client with feed := br.feed } pc

/-- Dial and forward, for a host that was found. -/
def forwardTo (scheme : Option Bytes) (host : Bytes) (port : Nat) (head : Bytes) (br : Reader)
    (s : Session) : Outcome × Session :=
  if host = [] then (.noHost, s)
  else
    match (dialViaProxy scheme host port).run s.upstream with
    | .error e pc => (.dialError e, { s with upstream := pc })
    | .ok _ pc => (.forwarded host, forward head br s.client pc)

section Handlers

variable (lower : Char → Char) (urlHost : Bytes → Option Bytes) (scheme : Option Bytes)

/-- `handleHTTPConn(c, proxyURI)`. -/
def handleHTTPConn (s : Session) : Outcome × Session :=
  match readHTTPHeader lower urlHost ⟨[], s.client.feed⟩ with
  | .error .eof => (.readError, s)
  | .error (.panic _) => (.panicked, s)
  | .ok (hdr, host, br) => forwardTo scheme host 80 hdr br s

/-- `handleTLSConn(c, proxyURI)`. -/
def handleTLSConn (s : Session) : Outcome × Session :=
  match (⟨[], s.client.feed⟩ : Reader).readFull 5 with
  | none => (.readError, s)
  | some (hdr, br) =>
    if hdr.getD 0 0 ≠ 0x16 then (.notHandshake, s)
    else
      match br.readFull ((hdr.getD 3 0).toNat * 256 + (hdr.getD 4 0).toNat) with
      | none => (.readError, s)
      | some (body, br) =>
        match parseSNI lower (hdr ++ body) with
        | .error _ => (.panicked, s)
        | .ok serverName => forwardTo scheme serverName 443 (hdr ++ body) br s

end Handlers

/-! ## What reaches the upstream connection -/

theorem forward_written {head : Bytes} {br : Reader} {client pc : Conn}
    (h : (forward head br client pc).upstream.room ≠ some 0) :
    (forward head br client pc).upstream.written.flatten = pc.written.flatten ++ (head ++ br.rest) := by
  have piece : ∀ {b : Bytes} {c : Conn}, (if b.length > 0 then tryWrite b c else c).room ≠ some 0 →
      (if b.length > 0 then tryWrite b c else c).written.flatten = c.written.flatten ++ b := by
    intro b c hroom
    split at hroom
    · next hb =>
      rw [if_pos hb, (tryWrite_of_room hroom).2, Conn.wrote_written]
      simp
    · next hb =>
      rw [if_neg hb, List.length_eq_zero_iff.1 (by omega : b.length = 0), List.append_nil]
  have room : ∀ {b : Bytes} {c : Conn}, (if b.length > 0 then tryWrite b c else c).room ≠ some 0 →
      c.room ≠ some 0 := by
    intro b c hroom
    split at hroom
    · exact (tryWrite_of_room hroom).1
    · exact hroom
  obtain ⟨hroom, hcopy⟩ := ioCopyConn_of_room h
  change (ioCopyConn _ _).written.flatten = _
  rw [hcopy, piece hroom, piece (room hroom), Reader.rest]
  simp

theorem forwardTo_written {scheme : Option Bytes} {host head h' : Bytes} {port : Nat} {br : Reader}
    {s s' : Session} (h : forwardTo scheme host port head br s = (.forwarded h', s'))
    (hroom : s'.upstream.room ≠ some 0) :
    ∃ pc, (dialViaProxy scheme h' port).run s.upstream = .ok () pc ∧
      s'.upstream.written.flatten = pc.written.flatten ++ (head ++ br.rest) := by
  unfold forwardTo at h
  split at h
  · cases h
  · split at h
    · cases h
    · next pc hdial =>
      cases h
      exact ⟨pc, hdial, forward_written hroom⟩

/-- **The proxy forwards the client's stream.** Whatever the chunks of the client
are, a client that is forwarded without a failed write has all its bytes on the
upstream connection after those of the dial, in order and once. -/
theorem forwards_client_stream (lower : Char → Char) (urlHost : Bytes → Option Bytes)
    (scheme : Option Bytes) (s s' : Session) (host : Bytes) (hroom : s'.upstream.room ≠ some 0) :
    (handleHTTPConn lower urlHost scheme s = (.forwarded host, s') →
      ∃ pc, (dialViaProxy scheme host 80).run s.upstream = .ok () pc ∧
        s'.upstream.written.flatten = pc.written.flatten ++ stream s.client.feed) ∧
    (handleTLSConn lower scheme s = (.forwarded host, s') →
      ∃ pc, (dialViaProxy scheme host 443).run s.upstream = .ok () pc ∧
        s'.upstream.written.flatten = pc.written.flatten ++ stream s.client.feed) := by
  constructor
  · intro h
    unfold handleHTTPConn at h
    split at h
    · cases h
    · cases h
    · next hdr host₁ br hhead =>
      obtain ⟨pc, hdial, hwritten⟩ := forwardTo_written h hroom
      have hrest : stream s.client.feed = hdr ++ br.rest := (took_readHTTPHeader hhead).rest_eq
      exact ⟨pc, hdial, by rw [hwritten, hrest]⟩
  · intro h
    unfold handleTLSConn at h
    split at h
    · cases h
    next hdr br hhdr =>
    split at h
    · cases h
    split at h
    · cases h
    next body br' hbody =>
    split at h
    · cases h
    next serverName hsni =>
    obtain ⟨pc, hdial, hwritten⟩ := forwardTo_written h hroom
    have htook := (Reader.took_readFull hhdr).1.trans (Reader.took_readFull hbody).1
    have hrest : stream s.client.feed = (hdr ++ body) ++ br'.rest := htook.rest_eq
    exact ⟨pc, hdial, by rw [hwritten, hrest]⟩

/-- A client whose bytes come in two reads, and a proxy that grants it a tunnel. -/
def clientSession (first second : Chunk) : Session where
  client := proxyConn [first, second]
  upstream := grantingProxy

/-- A request with a body, and a ClientHello with data after it; both are split
inside of what the handler reads. -/
theorem forwards_split_streams :
    (∃ pc, (dialViaProxy (some (ascii "socks5")) (ascii "a") 80).run grantingProxy = .ok () pc ∧
      (handleHTTPConn id some (some (ascii "socks5")) (clientSession ⟨ascii "P / HTTP/1.1\r\nHos", by decide⟩
          ⟨ascii "t: a\r\n\r\nbody", by decide⟩)).2.upstream.written.flatten =
        pc.written.flatten ++ ascii "P / HTTP/1.1\r\nHost: a\r\n\r\nbody") ∧
    ∃ pc, (dialViaProxy (some (ascii "socks5")) (ascii "a") 443).run grantingProxy = .ok () pc ∧
      (handleTLSConn id (some (ascii "socks5")) (clientSession ⟨[0x16], by decide⟩
          ⟨(clientHello (ascii "a")).tail ++ ascii "data", by decide⟩)).2.upstream.written.flatten =
        pc.written.flatten ++ (clientHello (ascii "a") ++ ascii "data") :=
  ⟨(forwards_client_stream id some (some (ascii "socks5")) (clientSession _ _) _ (ascii "a")
      (by decide +kernel)).1 (Prod.ext (by decide +kernel) rfl),
    (forwards_client_stream id some (some (ascii "socks5")) (clientSession _ _) _ (ascii "a")
      (by decide +kernel)).2 (Prod.ext (by decide +kernel) rfl)⟩

end Dockerset.GeoSni

import Dockerset.Go.Url
import Dockerset.Http.Request
import Mathlib.Logic.Function.Basic

/-!
# Requests of package `net/http`

A message is a request as it stands on a connection. The server makes an
`http.Request` of the one it has received, and the client makes one of an
`http.Request`: it follows redirects, and its transport asks for compression and
undoes it unless the request says something about that itself.

Messages are of HTTP/1.1 and without trailers. How a message goes on after a redirect
is a parameter, as is the decompression.
-/

namespace Dockerset.Go.NetHttp
open Http (isBlank)
open Url

/-! ## Header fields -/

/-- The values of each field, in the order in which they came, under the canonical form
of its name. A field that is not there has no values. -/
@[ext]
structure Header where
  values : Bytes → List Bytes

namespace Header

def empty : Header := ⟨fun _ => []⟩

/-- `h.Get(name)`. -/
def get (h : Header) (name : Bytes) : Bytes := (h.values name).headD []

/-- `h[name] = values`. -/
def set (h : Header) (name : Bytes) (values : List Bytes) : Header := ⟨Function.update h.values name values⟩

@[simp] theorem values_set_self (h : Header) (name : Bytes) (values : List Bytes) :
    (h.set name values).values name = values := by
  simp [set]

theorem values_set_of_ne (h : Header) {name name' : Bytes} (hne : name' ≠ name) (values : List Bytes) :
    (h.set name values).values name' = h.values name' := by
  simp [set, hne]

/-- `h.Del(name)`. -/
def del (h : Header) (name : Bytes) : Header := h.set name []

/-- The fields of `h'` replace those of `h` with the same name. -/
def overwrite (h h' : Header) : Header :=
  ⟨fun name => if h'.values name = [] then h.values name else h'.values name⟩

end Header

/-- `ascii.EqualFold(s, t)`. -/
def equalFold (s t : Bytes) : Bool := s.map lowerByte == t.map lowerByte

/-- `httpguts.HeaderValuesContainsToken(values, token)`. -/
def headerValuesContainsToken (values : List Bytes) (token : Bytes) : Bool :=
  values.any fun v => (v.splitOn 0x2c).any fun part =>
    equalFold ((part.dropWhile isBlank).rdropWhile isBlank) token

def isTokenBoundary (x : UInt8) : Bool := x == 0x20 || x == 0x2c || x == 0x09

/-- `hasToken(v, token)`. -/
def hasToken (v token : Bytes) : Bool :=
  (List.range (v.length + 1)).any fun i =>
    equalFold ((v.drop i).take token.length) token &&
      (v.take i).getLast?.all isTokenBoundary && (v.drop (i + token.length)).head?.all isTokenBoundary

/-! ## Messages -/

/-- How a message says where its body ends. -/
inductive Framing where
  | absent
  | contentLength (n : Nat)
  | chunked
deriving DecidableEq

/-- The `ContentLength` of a request that is framed like this. -/
def Framing.length : Framing → Int
  | .absent => 0
  | .contentLength n => n
  | .chunked => -1

/-- A request on a connection. The path and the query are those of its target, as they
are encoded there. The fields of the header are those other than `Host`,
`Content-Length`, `Transfer-Encoding` and `Trailer`. -/
structure Message where
  method : Bytes
  path : Bytes
  query : Option Bytes
  host : Bytes
  header : Header
  framing : Framing
  body : Bytes

structure Response where
  status : Nat
  header : Header
  body : Bytes

/-- A response to the method that has this status may have a body. -/
def allowsBody (method : Bytes) (status : Nat) : Bool :=
  method != ascii "HEAD" && status != 204 && status != 304

/-- A server at the other end, by its final responses. -/
structure Upstream where
  respond : Message → Response
  final : ∀ m, 200 ≤ (respond m).status ∧ (respond m).status ≤ 999
  bodyless : ∀ m, allowsBody m.method (respond m).status = false → (respond m).body = []

/-- The body of an `http.Request`. -/
inductive Body where
  /-- `http.NoBody`. -/
  | noBody
  | reader (content : Bytes)
  /-- A body that ends in an error. -/
  | broken
deriving DecidableEq

/-- `ioutil.ReadAll(body)`, if there is no error. -/
def Body.readAll : Body → Option Bytes
  | .noBody => some []
  | .reader content => some content
  | .broken => none

/-- An `http.Request`. `chunked` is its `TransferEncoding`. -/
structure Request where
  method : Bytes
  url : URL
  host : Bytes
  header : Header
  contentLength : Int
  chunked : Bool
  body : Body
  close : Bool

/-- `r.URL = url`. -/
def Request.withUrl (r : Request) (url : URL) : Request := { r with url }

/-- Another body with its length. -/
def Request.withBody (r : Request) (content : Bytes) : Request :=
  { r with body := .reader content, contentLength := content.length }

/-! ## The server -/

/-- The bytes of a `Host` field that the server accepts. -/
def validHostByte (x : UInt8) : Bool := isAlphanumeric x || (ascii "!$%&()*+,-.:;='[]_~").contains x

/-- The fields that a message has in places of their own. -/
def framingFields : List Bytes :=
  [ascii "Host", ascii "Content-Length", ascii "Transfer-Encoding", ascii "Trailer"]

/-- A message that the server has accepted. `urlPath` is its path, decoded: the path of
an absolute target and of an authority may be empty, and the target `*` is a path. -/
structure Received extends Message where
  urlPath : Bytes
  decodes : unescape .path path = some urlPath
  form : path.head? = some 0x2f ∨ path = [] ∨ path = ascii "*"
  validHost : host.all validHostByte = true
  noFraming : ∀ name ∈ framingFields, header.values name = []
  unframed : framing = .absent → body = []
  framed : ∀ n, framing = .contentLength n → n = body.length

/-- `fixPragmaCacheControl(header)`. -/
def fixPragmaCacheControl (h : Header) : Header :=
  if (h.values (ascii "Pragma")).head? = some (ascii "no-cache") ∧
      h.values (ascii "Cache-Control") = [] then
    h.set (ascii "Cache-Control") [ascii "no-cache"]
  else h

/-- The `http.Request` that a handler gets. -/
def Received.request (r : Received) : Request where
  method := r.method
  url :=
    { host := []
      path := r.urlPath
      rawPath := if r.path = escape .path r.urlPath then [] else r.path
      query := r.query }
  host := r.host
  header := fixPragmaCacheControl r.header
  contentLength := r.framing.length
  chunked := r.framing = .chunked
  body := if r.framing ≠ .chunked ∧ r.body = [] then .noBody else .reader r.body
  close := headerValuesContainsToken (r.header.values (ascii "Connection")) (ascii "close")

/-- The elements of `path.Clean(p)`, for a `p` that starts with a slash. -/
def cleanElements (elements : List Bytes) : List Bytes :=
  elements.foldl (fun kept e =>
    if e = [] ∨ e = ascii "." then kept else if e = ascii ".." then kept.dropLast else kept ++ [e]) []

/-- `cleanPath(p)`. -/
def cleanPath (p : Bytes) : Bytes :=
  let p := if p.head? = some 0x2f then p else 0x2f :: p
  let np := 0x2f :: [0x2f].intercalate (cleanElements (p.splitOn 0x2f))
  if p.getLast? = some 0x2f ∧ np ≠ [0x2f] then np ++ [0x2f] else np

example : cleanPath (ascii "/a//b") = ascii "/a/b" ∧ cleanPath (ascii "/a/./b/../c/") = ascii "/a/c/" ∧
    cleanPath (ascii "/..") = ascii "/" ∧ cleanPath [] = ascii "/" ∧
    cleanPath (ascii "/a/b/") = ascii "/a/b/" := by decide +kernel

/-- `removeZone(host)`. -/
def removeZone (host : Bytes) : Bytes :=
  if host.head? = some 0x5b then
    match lastIndexByte host 0x5d with
    | none => host
    | some i =>
      match lastIndexByte (host.take i) 0x25 with
      | none => host
      | some j => host.take j ++ host.drop i
  else host

/-- `r.outgoingLength()`. -/
def Request.outgoingLength (r : Request) : Int :=
  if r.body = .noBody then 0 else if r.contentLength ≠ 0 then r.contentLength else -1

/-- `requestMethodUsuallyLacksBody(method)`. -/
def requestMethodUsuallyLacksBody (method : Bytes) : Bool :=
  [ascii "GET", ascii "HEAD", ascii "DELETE", ascii "OPTIONS", ascii "PROPFIND", ascii "SEARCH"].contains
    method

/-- `t.shouldSendChunkedRequestBody()`, for a body of unknown length. -/
def shouldSendChunkedRequestBody (method content : Bytes) : Bool :=
  if method = ascii "CONNECT" then false
  else if requestMethodUsuallyLacksBody method then content != []
  else true

/-- What the `transferWriter` says about the body. -/
def Request.framing (r : Request) (content : Bytes) : Framing :=
  let n := r.outgoingLength
  if r.chunked || (n < 0 && shouldSendChunkedRequestBody r.method content) then .chunked
  else if 0 < n then .contentLength n.toNat
  else if n = 0 && [ascii "POST", ascii "PUT", ascii "PATCH"].contains r.method then .contentLength 0
  else .absent

section

variable {r : Request} {content : Bytes}

end

/-- Whether the transport asks for compression on its own account. -/
def Request.requestedGzip (r : Request) : Bool :=
  r.header.get (ascii "Accept-Encoding") == [] && r.header.get (ascii "Range") == [] &&
    r.method != ascii "HEAD"

/-- The values of a field of the message: `User-Agent` has one or none, and the transport
adds to `Connection` and `Accept-Encoding`. -/
def Request.fieldValues (r : Request) (name : Bytes) : List Bytes :=
  if name = ascii "User-Agent" then
    match r.header.values name with
    | [] => [ascii "Go-http-client/1.1"]
    | v :: _ => if v = [] then [] else [v]
  else if name ∈ framingFields then []
  else if name = ascii "Connection" then
    (if r.close && !hasToken (r.header.get name) (ascii "close") then [ascii "close"] else []) ++
      r.header.values name
  else if name = ascii "Accept-Encoding" then
    r.header.values name ++ if r.requestedGzip then [ascii "gzip"] else []
  else r.header.values name

theorem Request.fieldValues_userAgent (r : Request) :
    r.fieldValues (ascii "User-Agent") =
      match r.header.values (ascii "User-Agent") with
      | [] => [ascii "Go-http-client/1.1"]
      | v :: _ => if v = [] then [] else [v] := if_pos rfl

theorem Request.fieldValues_connection (r : Request) :
    r.fieldValues (ascii "Connection") =
      (if r.close && !hasToken (r.header.get (ascii "Connection")) (ascii "close") then [ascii "close"]
        else []) ++ r.header.values (ascii "Connection") := by
  unfold Request.fieldValues
  rw [if_neg (by decide), if_neg (by decide), if_pos rfl]

theorem Request.fieldValues_acceptEncoding (r : Request) :
    r.fieldValues (ascii "Accept-Encoding") =
      r.header.values (ascii "Accept-Encoding") ++ if r.requestedGzip then [ascii "gzip"] else [] := by
  unfold Request.fieldValues
  rw [if_neg (by decide), if_neg (by decide), if_neg (by decide), if_pos rfl]

theorem Request.fieldValues_framing (r : Request) {name : Bytes} (h : name ∈ framingFields) :
    r.fieldValues name = [] := by
  unfold Request.fieldValues
  rw [if_neg, if_pos h]
  rintro rfl
  exact absurd h (by decide)

theorem Request.fieldValues_other (r : Request) {name : Bytes} (hframing : name ∉ framingFields)
    (hua : name ≠ ascii "User-Agent") (hconn : name ≠ ascii "Connection")
    (hae : name ≠ ascii "Accept-Encoding") : r.fieldValues name = r.header.values name := by
  unfold Request.fieldValues
  rw [if_neg hua, if_neg hframing, if_neg hconn, if_neg hae]

/-- The path and the query of the target. That of `CONNECT` is the host, unless the URL
has a path. -/
def target (method : Bytes) (u : URL) : Bytes × Option Bytes :=
  if method = ascii "CONNECT" ∧ u.path = [] then ([], none) else (u.requestPath, u.query)

/-- The message of a request with the content of its body. -/
def Request.message (r : Request) (content : Bytes) : Message where
  method := r.method
  path := (target r.method r.url).1
  query := (target r.method r.url).2
  host := removeZone r.host
  header := ⟨r.fieldValues⟩
  framing := r.framing content
  body := content

/-- What goes wrong before there is a response. -/
inductive Failure where
  | parse
  | noHost
  | body
  | redirect
  | tooManyRedirects
deriving DecidableEq

/-- Whether the client follows a response. -/
def Request.follows (r : Request) (res : Response) : Bool :=
  res.header.get (ascii "Location") != [] &&
    ([301, 302, 303].contains res.status ||
      ([307, 308].contains res.status && r.outgoingLength = 0))

section

variable (gunzip : Bytes → Bytes) (redirect : Message → Response → Option (Message × Bool))
  (upstream : Upstream)

/-- A response as the transport returns it. -/
def decompress (requestedGzip : Bool) (res : Response) : Response :=
  if requestedGzip && equalFold (res.header.get (ascii "Content-Encoding")) (ascii "gzip") then
    { res with
      header := (res.header.del (ascii "Content-Encoding")).del (ascii "Content-Length")
      body := gunzip res.body }
  else res

/-- The messages of a request from `m` on, with `n` redirects left, and how it ends. -/
def exchange (r : Request) : Nat → Message → Bool → List Message × Except Failure Response
  | n, m, gzip =>
    let res := decompress gunzip gzip (upstream.respond m)
    if r.follows res then
      match n with
      | 0 => ([m], .error .tooManyRedirects)
      | n + 1 =>
        match redirect m res with
        | none => ([m], .error .redirect)
        | some (m', gzip') =>
          let (ms, out) := exchange r n m' gzip'
          (m :: ms, out)
    else ([m], .ok res)

variable {gunzip redirect upstream} {r : Request} {m : Message} {gzip : Bool}

theorem exchange_of_not_follows (n : Nat)
    (h : r.follows (decompress gunzip gzip (upstream.respond m)) = false) :
    exchange gunzip redirect upstream r n m gzip =
      ([m], .ok (decompress gunzip gzip (upstream.respond m))) := by
  unfold exchange
  simp [h]

variable (gunzip redirect upstream)

/-- `client.Do(r)`. -/
def clientDo (r : Request) : List Message × Except Failure Response :=
  if r.url.host = [] then ([], .error .noHost)
  else
    match r.body.readAll with
    | none => ([], .error .body)
    | some content => exchange gunzip redirect upstream r 9 (r.message content) r.requestedGzip

end

/-! ## The writer of a response -/

/-- The `http.ResponseWriter` of a handler, with the method of its request. -/
structure Writer where
  method : Bytes
  header : Header
  status : Option Nat
  body : Bytes

namespace Writer

/-- The writer that a handler gets. -/
def fresh (method : Bytes) : Writer := ⟨method, .empty, none, []⟩

/-- `w.WriteHeader(statusCode)`. Only the first call counts. -/
def writeHeader (w : Writer) (statusCode : Nat) : Writer :=
  { w with status := some (w.status.getD statusCode) }

/-- `w.Write(p)`. -/
def write (w : Writer) (p : Bytes) : Writer :=
  let w := w.writeHeader 200
  if allowsBody w.method (w.status.getD 200) then { w with body := w.body ++ p } else w

end Writer

end Dockerset.Go.NetHttp

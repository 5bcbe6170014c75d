import Dockerset.Go.NetHttp

/-!
# The body rewriter (`rewriter/main.go`)

A handler in front of a proxy. In its request stage it reads the body of a request,
rewrites it and hands the request on; in its response stage it keeps back what the
proxy writes and rewrites that. The proxy puts the target of the request together
from its host and its decoded path, parses that as a URL and gives the request to an
`http.Client` that connects to the forward server.

What `http.ListenAndServe` does before it calls the handler is in `Received.request`,
and which requests the multiplexer in front of it answers on its own in
`Received.route`, of its answers only the status. It is the multiplexer that the `go 1.18`
of `go.mod` asks for, which looks at the decoded path. There is no proxy in the
environment. `Flush`, which the proxy does not call, and the messages to the log are left
out. The texts of errors are a parameter, and so are the two regular expressions.
-/

namespace Dockerset.Rewriter
open Go Url NetHttp

/-- A compiled regular expression. -/
structure Regexp where
  matchString : Bytes → Bool
  replaceAll : Bytes → Bytes → Bytes

structure Detail where
  url : Option Regexp
  method : Bytes
  search : Regexp
  replacement : Bytes

structure RewriteBody where
  stage : Bytes
  detail : Detail
  lastModified : Bool

/-! ## Writers -/

/-- The interface `http.ResponseWriter`. -/
class HttpWriter (ω : Type) where
  modifyHeader : ω → (Header → Header) → ω
  writeHeader : ω → Nat → ω
  write : ω → Bytes → ω

instance : HttpWriter Writer where
  modifyHeader w f := { w with header := f w.header }
  writeHeader := Writer.writeHeader
  write := Writer.write

/-- The writer that keeps back the body. -/
structure ResponseWriter where
  buffer : Bytes
  lastModified : Bool
  wroteHeader : Bool
  responseWriter : Writer

namespace ResponseWriter

def writeHeader (r : ResponseWriter) (statusCode : Nat) : ResponseWriter :=
  let header := r.responseWriter.header
  let header := if r.lastModified then header else header.del (ascii "Last-Modified")
  let header := header.del (ascii "Content-Length")
  { r with
    wroteHeader := true
    responseWriter := { r.responseWriter with header }.writeHeader statusCode }

def write (r : ResponseWriter) (p : Bytes) : ResponseWriter :=
  let r := if r.wroteHeader then r else r.writeHeader 200
  { r with buffer := r.buffer ++ p }

instance : HttpWriter ResponseWriter where
  modifyHeader r f :=
    { r with responseWriter := { r.responseWriter with header := f r.responseWriter.header } }
  writeHeader := writeHeader
  write := write

end ResponseWriter

/-! ## The proxy -/

section

variable {ω : Type} [HttpWriter ω]
variable (gunzip : Bytes → Bytes) (redirect : Message → Response → Option (Message × Bool))
  (errorText : Failure → Bytes) (upstream : Upstream)

/-- The proxy writes the text of an error, or passes a response on. -/
def answer (w : ω) : Except Failure Response → ω
  | .error err => HttpWriter.write w (errorText err)
  | .ok res =>
    let w := HttpWriter.modifyHeader w fun header => header.overwrite res.header
    let w := HttpWriter.writeHeader w res.status
    HttpWriter.write w res.body

/-- `PassProxy.ServeHTTP(w, r)`: what it sends and what it leaves of its arguments. -/
def passProxy (w : ω) (r : Request) : List Message × ω × Request :=
  match parseHttp (r.host ++ r.url.path) with
  | none => ([], answer errorText w (.error .parse), r)
  | some url =>
    let r := r.withUrl url
    let (sent, out) := clientDo gunzip redirect upstream r
    (sent, answer errorText w out, r)

/-! ## The handler -/

/-- The body of a request, or of the response to it, after the rule was applied. -/
def Detail.rewrite (rwt : Detail) (req : Request) (bodyBytes : Bytes) : Bytes :=
  match rwt.url with
  | some url =>
    if rwt.method ≠ [] then
      if rwt.method = req.method ∧ url.matchString req.url.path = true then
        rwt.search.replaceAll bodyBytes rwt.replacement
      else bodyBytes
    else rwt.search.replaceAll bodyBytes rwt.replacement
  | none => rwt.search.replaceAll bodyBytes rwt.replacement

namespace RewriteBody

def serveHTTPResponse (r : RewriteBody) (rw : Writer) (req : Request) : List Message × Writer :=
  let wrappedWriter : ResponseWriter := ⟨[], r.lastModified, false, rw⟩
  -- the proxy leaves its own URL in the request
  let (sent, wrappedWriter, req) := passProxy gunzip redirect errorText upstream wrappedWriter req
  let rw := wrappedWriter.responseWriter
  let contentEncoding := rw.header.get (ascii "Content-Encoding")
  if contentEncoding ≠ [] ∧ contentEncoding ≠ ascii "identity" then (sent, rw.write wrappedWriter.buffer)
  else (sent, rw.write (r.detail.rewrite req wrappedWriter.buffer))

def serveHTTPRequest (r : RewriteBody) (rw : Writer) (req : Request) : List Message × Writer :=
  match req.body.readAll with
  | none =>
    let (sent, rw, _) := passProxy gunzip redirect errorText upstream rw req
    (sent, rw)
  | some bodyBytes =>
    let bodyBytes := r.detail.rewrite req bodyBytes
    let (sent, rw, _) := passProxy gunzip redirect errorText upstream rw (req.withBody bodyBytes)
    (sent, rw)

def serveHTTP (r : RewriteBody) (rw : Writer) (req : Request) : List Message × Writer :=
  if r.stage = ascii "response" then serveHTTPResponse gunzip redirect errorText upstream r rw req
  else serveHTTPRequest gunzip redirect errorText upstream r rw req

/-- What the handler does with a message that the server has received. -/
def handle (r : RewriteBody) (m : Received) : List Message × Writer :=
  serveHTTP gunzip redirect errorText upstream r (.fresh m.method) m.request

end RewriteBody

end

end Dockerset.Rewriter

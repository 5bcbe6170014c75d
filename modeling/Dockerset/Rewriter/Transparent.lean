import Dockerset.Rewriter.Forwarded

/-!
# What passes the rewriter unchanged

Where its rule does not apply the rewriter should not be noticed. `Transparent` says
so, and `Passes` is when it is so (`transparent_iff`): if the handler gets the message,
if the proxy sends what it was given and follows no redirect, and if the rule looks at
the method and the path at all. The query of a target is always lost (`query_lost`).
-/

namespace Dockerset.Rewriter
open Go Url NetHttp

/-! ## What the client gets -/

section

variable (errorText : Failure → Bytes) (lastModified : Bool) (method : Bytes) (res : Response)

/-- The writer of the response stage, before the proxy writes to it. -/
def wrapped : ResponseWriter := ⟨[], lastModified, false, .fresh method⟩

end

/-! ## The handler -/

/-- The rule looks at the method and the path. -/
def Detail.Filters (rwt : Detail) : Prop := rwt.method ≠ [] ∧ rwt.url.isSome = true

def RewriteBody.OnResponse (r : RewriteBody) : Prop := r.stage = ascii "response"

instance (r : RewriteBody) : Decidable r.OnResponse := inferInstanceAs (Decidable (r.stage = _))

/-- The rule leaves the body alone, if it applies to everything. -/
def RuleKept (r : RewriteBody) (m : Received) (res : Response) : Prop :=
  ¬ r.detail.Filters →
    if r.OnResponse then
      (res.header.get (ascii "Content-Encoding") = [] ∨
          res.header.get (ascii "Content-Encoding") = ascii "identity") →
        allowsBody m.method res.status = true →
        r.detail.search.replaceAll res.body r.detail.replacement = res.body
    else r.detail.search.replaceAll m.body r.detail.replacement = m.body

/-- When the handler is not noticed. -/
structure HandlerPasses (upstream : Upstream) (r : RewriteBody) (m : Received) : Prop where
  target : TargetKept m
  host : HostKept m
  fields : FieldsKept m
  framing : FramingKept r.OnResponse m
  answer : AnswerKept r.OnResponse m (upstream.respond m.toMessage)
  rule : RuleKept r m (upstream.respond m.toMessage)

/-- When the rewriter is not noticed: the path is clean besides, and there is one. -/
structure Passes (upstream : Upstream) (r : RewriteBody) (m : Received) : Prop extends
    HandlerPasses upstream r m where
  slash : m.path.head? = some 0x2f
  clean : m.method ≠ ascii "CONNECT" → cleanPath m.urlPath = m.urlPath

section

variable {gunzip : Bytes → Bytes} {redirect : Message → Response → Option (Message × Bool)}
  {errorText : Failure → Bytes} {upstream : Upstream} {r : RewriteBody} {m : Received} {q : Request}

/-- The message is sent as it was received and nothing else is, and the client gets the
status and the body of the response to it. -/
def Unnoticed (upstream : Upstream) (m : Received) (out : List Message × Writer) : Prop :=
  out.1 = [m.toMessage] ∧ out.2.status = some (upstream.respond m.toMessage).status ∧
    out.2.body = (upstream.respond m.toMessage).body

end

end Dockerset.Rewriter

import Dockerset.GeoSni.Connect

/-!
# The host of an HTTP request (`readHTTPHeader`, `parseHTTPHost`)

`readHTTPHeader` collects the lines of a request up to the blank one and takes
the host from the first `Host:` line that names one; `parseHTTPHost` then looks
at the whole head again, and at an absolute URL in the request line. What
`url.Parse` makes of that URL is a parameter. Its slice `first[start:uEnd]` is
not guarded: `parseHTTPHost` can panic.
-/

namespace Dockerset.GeoSni
open Go

/-- `strings.Split(s, "\r\n")`, with the piece so far. -/
def splitCRLF (piece : Bytes) : Bytes → List Bytes
  | [] => [piece]
  | [x] => [piece ++ [x]]
  | x :: y :: b =>
    if x = 0x0d ∧ y = 0x0a then piece :: splitCRLF [] b else splitCRLF (piece ++ [x]) (y :: b)

/-- The host before a port: `h[:j]` for the first colon, unless `h` starts with it. -/
def beforePort (h : Bytes) : Bytes :=
  match h.idxOf? 0x3a with
  | some j => if j > 0 then h.take j else h
  | none => h

/-- The test and the value of a `Host:` line. -/
def isHostLine (lower : Char → Char) (l : Bytes) : Bool := (ascii "host:").isPrefixOf (toLower lower l)

def hostLineValue (l : Bytes) : Bytes :=
  trimSpaceBytes (trimPre (trimSpaceBytes (trimPre l (ascii "Host:"))) (ascii "host:"))

section

variable (lower : Char → Char) (urlHost : Bytes → Option Bytes)

/-- The loop of `parseHTTPHost`, which passes over empty values. -/
def hostInLines : List Bytes → Option Bytes
  | [] => none
  | l :: ls =>
    if isHostLine lower l ∧ hostLineValue l ≠ [] then some (beforePort (hostLineValue l))
    else hostInLines ls

/-- `parseHTTPHost(b)`, where `urlHost` is the host that `url.Parse` finds. -/
def parseHTTPHost (b : Bytes) : Except Panic Bytes :=
  match hostInLines lower (splitCRLF [] b) with
  | some h => return h
  | none =>
    let first := (splitCRLF [] b).headD []
    if containsBytes first (ascii " http://") then
      match indexBytes first (ascii " HTTP/") with
      | some uEnd =>
        if uEnd > 0 then do
          -- found, since it is there after a space
          let start := (indexBytes first (ascii "http://")).getD 0
          let u ← slice first start uEnd
          return beforePort ((urlHost u).getD [])
        else return []
      | none => return []
    else return []

/-- The loop of `readHTTPHeader`: the bytes read so far and the host found so far. -/
def readHeadLines (buf host : Bytes) (br : Reader) : Option (Bytes × Bytes × Reader) :=
  match _h : br.readString lf with
  | none => none
  | some (l, br') =>
    let buf := buf ++ l
    let host := if isHostLine lower l ∧ host = [] then beforePort (hostLineValue l) else host
    if l = crlf then some (buf, host, br') else readHeadLines buf host br'
termination_by br.rest.length
decreasing_by exact (Reader.took_readString _h).1.rest_lt (Reader.took_readString _h).2.ne_nil

inductive HeadErr where
  | eof
  | panic (p : Panic)
deriving DecidableEq

/-- `readHTTPHeader(br)`. -/
def readHTTPHeader (br : Reader) : Except HeadErr (Bytes × Bytes × Reader) :=
  match readHeadLines lower [] [] br with
  | none => .error .eof
  | some (buf, host, br) =>
    if host = [] then
      match parseHTTPHost lower urlHost buf with
      | .ok host => .ok (buf, host, br)
      | .error p => .error (.panic p)
    else .ok (buf, host, br)

end

/-- The slice of an absolute URL can end before it starts. -/
example : parseHTTPHost id some (ascii "GET HTTP/ http://x\r\n\r\n") = .error .slice := by
  decide +kernel

example : readHTTPHeader id some ⟨ascii "G / HTTP/1.1\r\nhO", [⟨ascii "St: A:80\r\n\r\nrest", by decide⟩]⟩ =
    .ok (ascii "G / HTTP/1.1\r\nhOSt: A:80\r\n\r\n", ascii "hOSt", ⟨ascii "rest", []⟩) := by
  decide +kernel

section

variable {lower : Char → Char} {urlHost : Bytes → Option Bytes}

theorem took_readHeadLines {buf host buf' host' : Bytes} {br br' : Reader}
    (h : readHeadLines lower buf host br = some (buf', host', br')) :
    ∃ out, buf' = buf ++ out ∧ Took br br' out := by
  fun_induction readHeadLines lower buf host br with
  | case1 => cases h
  | case2 buf host br br₁ hr =>
    simp only [Option.some.injEq, Prod.mk.injEq] at h
    obtain ⟨hbuf, -, rfl⟩ := h
    exact ⟨crlf, hbuf.symm, (Reader.took_readString hr).1⟩
  | case3 buf host br l br₁ hr _ _ _ ih =>
    obtain ⟨out, rfl, htook⟩ := ih h
    exact ⟨l ++ out, List.append_assoc _ _ _, (Reader.took_readString hr).1.trans htook⟩

theorem took_readHTTPHeader {br br' : Reader} {hdr host : Bytes}
    (h : readHTTPHeader lower urlHost br = .ok (hdr, host, br')) : Took br br' hdr := by
  unfold readHTTPHeader at h
  split at h
  · cases h
  · next buf host₁ br₁ hlines =>
    obtain ⟨out, rfl, htook⟩ := took_readHeadLines hlines
    split at h
    · split at h
      · cases h
        exact htook
      · cases h
    · cases h
      exact htook

end

end Dockerset.GeoSni

import Dockerset.Go.Utf8
import Mathlib.Data.List.TakeWhile

/-!
# URLs

The percent-encoding of package `net/url` and what `url.Parse` makes of a text that
starts with `http://`. A URL keeps the decoded path, and the text it was decoded from
where that is not how the package would write it; the target of a request is put
together from the two.

`Kept` says which paths come out of a second decoding as they went into the first.
-/

namespace Dockerset.Go.Url

/-- The part of a URL that is encoded. -/
inductive Mode where
  | path
  | host
  | zone
  | fragment
deriving DecidableEq

def isAlphanumeric (c : UInt8) : Bool :=
  (0x61 ≤ c && c ≤ 0x7a) || (0x41 ≤ c && c ≤ 0x5a) || (0x30 ≤ c && c ≤ 0x39)

/-- `shouldEscape(c, mode)`. -/
def shouldEscape (mode : Mode) (c : UInt8) : Bool :=
  if isAlphanumeric c then false
  else if (mode == .host || mode == .zone) && (ascii "!$&'()*+,;=:[]<>\"").contains c then false
  else if (ascii "-_.~").contains c then false
  else if (ascii "$&+,/:;=?@").contains c && (mode == .path || mode == .fragment) then
    mode == .path && c == 0x3f
  else if mode == .fragment && (ascii "!()*").contains c then false
  else true

/-- `ishex(c)`. -/
def isHex (c : UInt8) : Bool :=
  (0x30 ≤ c && c ≤ 0x39) || (0x61 ≤ c && c ≤ 0x66) || (0x41 ≤ c && c ≤ 0x46)

/-- `unhex(c)`. -/
def unhex (c : UInt8) : UInt8 :=
  if 0x30 ≤ c && c ≤ 0x39 then c - 0x30
  else if 0x61 ≤ c && c ≤ 0x66 then c - 0x61 + 10
  else if 0x41 ≤ c && c ≤ 0x46 then c - 0x41 + 10
  else 0

/-- `upperhex[n]`. -/
def upperHex (n : UInt8) : UInt8 := if n < 10 then n + 0x30 else n + 0x37

/-- The escape of a byte. -/
def percent (c : UInt8) : Bytes := [0x25, upperHex (c >>> 4), upperHex (c &&& 15)]

/-- `escape(s, mode)`, for the modes here. -/
def escape (mode : Mode) (s : Bytes) : Bytes :=
  s.flatMap fun c => if shouldEscape mode c then percent c else [c]

/-- The escapes that the part of the URL allows. In a host they are for bytes outside
ASCII, and `%25` may start a zone. -/
def allowsEscape (mode : Mode) (a b : UInt8) : Bool :=
  match mode with
  | .path | .fragment => true
  | .host => 8 ≤ unhex a || (a == 0x32 && b == 0x35)
  | .zone =>
    let v := unhex a <<< 4 ||| unhex b
    (a == 0x32 && b == 0x35) || v == 0x20 || !shouldEscape .host v

/-- The bytes that the part of the URL allows as they are. -/
def allowsByte (mode : Mode) (c : UInt8) : Bool :=
  match mode with
  | .path | .fragment => true
  | .host | .zone => 0x80 ≤ c || !shouldEscape mode c

/-- `unescape(s, mode)`. -/
def unescape (mode : Mode) : Bytes → Option Bytes
  | [] => some []
  | c :: s =>
    if c = 0x25 then
      match s with
      | a :: b :: s =>
        if isHex a && isHex b && allowsEscape mode a b then
          (unescape mode s).map ((unhex a <<< 4 ||| unhex b) :: ·)
        else none
      | _ => none
    else if allowsByte mode c then (unescape mode s).map (c :: ·)
    else none

/-- `validEncoded(s, mode)`. -/
def validEncoded (mode : Mode) (s : Bytes) : Bool :=
  s.all fun c => (ascii "!$&'()*+,;=:@[]%").contains c || !shouldEscape mode c

/-- The part before the first `d`, and the part after it if there is one. -/
def cut (d : UInt8) (s : Bytes) : Bytes × Option Bytes :=
  (s.takeWhile (· != d), if d ∈ s then some (s.dropWhile (· != d)).tail else none)

/-- `strings.LastIndexByte(s, d)`. -/
def lastIndexByte (s : Bytes) (d : UInt8) : Option Nat :=
  (s.reverse.findIdx? (· == d)).map (s.length - 1 - ·)

/-- `validOptionalPort(port)`. -/
def validOptionalPort : Bytes → Bool
  | [] => true
  | c :: digits => c == 0x3a && digits.all fun x => 0x30 ≤ x && x ≤ 0x39

/-- `parseHost(host)`. -/
def parseHost (host : Bytes) : Option Bytes :=
  if host.head? = some 0x5b then do
    let i ← lastIndexByte host 0x5d
    if !validOptionalPort (host.drop (i + 1)) then none
    else
      match indexBytes (host.take i) (ascii "%25") with
      | some zone =>
        let host1 ← unescape .host (host.take zone)
        let host2 ← unescape .zone ((host.take i).drop zone)
        let host3 ← unescape .host (host.drop i)
        some (host1 ++ host2 ++ host3)
      | none => unescape .host host
  else
    match lastIndexByte host 0x3a with
    | some i => if validOptionalPort (host.drop i) then unescape .host host else none
    | none => unescape .host host

/-- A URL without user information. `ForceQuery` marks an empty query here. -/
structure URL where
  host : Bytes
  path : Bytes
  rawPath : Bytes
  query : Option Bytes
deriving DecidableEq

def isControl (c : UInt8) : Bool := c < 0x20 || c == 0x7f

/-- `url.Parse("http://" + rest)`, where the authority has no user information. The
fragment has to be well formed, but nothing here reads it. -/
def parseHttp (rest : Bytes) : Option URL := do
  let (u, frag) := cut 0x23 rest
  if u.any isControl then none
  else
    let (rest, query) := cut 0x3f u
    let host ← parseHost (rest.takeWhile (· != 0x2f))
    let rawPath := rest.dropWhile (· != 0x2f)
    let path ← unescape .path rawPath
    let _ ← unescape .fragment (frag.getD [])
    some { host, path, rawPath := if rawPath = escape .path path then [] else rawPath, query }

/-- `u.EscapedPath()`. -/
def URL.escapedPath (u : URL) : Bytes :=
  if u.rawPath ≠ [] ∧ validEncoded .path u.rawPath = true ∧ unescape .path u.rawPath = some u.path then
    u.rawPath
  else if u.path = ascii "*" then ascii "*"
  else escape .path u.path

/-- The path that `u.RequestURI()` starts with. -/
def URL.requestPath (u : URL) : Bytes := if u.escapedPath = [] then [0x2f] else u.escapedPath

/-! ## Decoding -/

section

variable {mode : Mode} {s t : Bytes} {c : UInt8}

theorem forall_byte {p : UInt8 → Prop} (h : ∀ n : Fin 256, p (UInt8.ofFin n)) (c : UInt8) : p c := h c.toFin

theorem isHex_upperHex (c : UInt8) :
    (isHex (upperHex (c >>> 4)) && isHex (upperHex (c &&& 15))) = true := by
  revert c
  apply forall_byte
  decide +kernel

theorem unhex_upperHex (c : UInt8) :
    (unhex (upperHex (c >>> 4)) <<< 4 ||| unhex (upperHex (c &&& 15))) = c := by
  revert c
  apply forall_byte
  decide +kernel

theorem shouldEscape_percent (mode : Mode) : shouldEscape mode 0x25 = true := by
  cases mode <;> rfl

theorem unescape_cons_of_ne (h : c ≠ 0x25) (s : Bytes) :
    unescape mode (c :: s) = if allowsByte mode c then (unescape mode s).map (c :: ·) else none := by
  rw [unescape.eq_def]
  exact if_neg h

theorem unescape_percent (a b : UInt8) (s : Bytes) :
    unescape mode (0x25 :: a :: b :: s) =
      if isHex a && isHex b && allowsEscape mode a b then
        (unescape mode s).map ((unhex a <<< 4 ||| unhex b) :: ·)
      else none := by
  rw [unescape.eq_def]
  exact if_pos rfl

theorem unescape_cons_eq_some (hc : c ≠ 0x25) (h : unescape mode (c :: s) = some t) :
    ∃ t', unescape mode s = some t' ∧ t = c :: t' := by
  rw [unescape_cons_of_ne hc] at h
  split at h
  · obtain ⟨t', ht', rfl⟩ := Option.map_eq_some_iff.1 h
    exact ⟨t', ht', rfl⟩
  · cases h

theorem unescape_eq_self (h : 0x25 ∉ s) : unescape .path s = some s := by
  induction s with
  | nil => rfl
  | cons c s ih =>
    have hc : c ≠ 0x25 := fun heq => h (by simp [heq])
    rw [unescape_cons_of_ne hc, allowsByte, if_pos rfl, ih fun hmem => h (List.mem_cons_of_mem c hmem)]
    rfl

theorem escape_cons (c : UInt8) (s : Bytes) :
    escape mode (c :: s) = (if shouldEscape mode c then percent c else [c]) ++ escape mode s := rfl

theorem unescape_escape (s : Bytes) : unescape .path (escape .path s) = some s := by
  induction s with
  | nil => rfl
  | cons c s ih =>
    rw [escape_cons]
    cases hc : shouldEscape .path c with
    | true =>
      change unescape .path (0x25 :: upperHex (c >>> 4) :: upperHex (c &&& 15) :: escape .path s) = _
      rw [unescape_percent, isHex_upperHex, allowsEscape, Bool.and_true, if_pos rfl, ih, unhex_upperHex]
      rfl
    | false =>
      have hne : c ≠ 0x25 := by
        rintro rfl
        rw [shouldEscape_percent] at hc
        cases hc
      change unescape .path (c :: escape .path s) = _
      rw [unescape_cons_of_ne hne, allowsByte, if_pos rfl, ih]
      rfl

end

/-! ## Parsing -/

section

variable {d : UInt8} {s u v : Bytes}

theorem cut_append (h : d ∉ u) (v : Bytes) : cut d (u ++ v) = (u ++ (cut d v).1, (cut d v).2) := by
  have hall : ∀ x ∈ u, (x != d) = true := by
    intro x hx
    simp only [bne_iff_ne, ne_eq]
    rintro rfl
    exact h hx
  simp [cut, List.takeWhile_append_of_pos hall, List.dropWhile_append_of_pos hall, h]

theorem cut_of_not_mem (h : d ∉ s) : cut d s = (s, none) := by
  have hs := cut_append h []
  simpa [cut] using hs

theorem head?_cut (hd : d ≠ 0x2f) (h : s.head? = some 0x2f) : (cut d s).1.head? = some 0x2f := by
  cases s with
  | nil => cases h
  | cons c s =>
    cases h
    have hne : ((0x2f : UInt8) != d) = true := by simpa using hd.symm
    simp [cut, hne]

/-- A host, as far as the text before a path goes. -/
def PlainHost (host : Bytes) : Prop :=
  0x23 ∉ host ∧ 0x3f ∉ host ∧ 0x2f ∉ host ∧ host.any isControl = false

/-- The part of a decoded path that is taken for the path. -/
def pathPart (path : Bytes) : Bytes := (cut 0x3f (cut 0x23 path).1).1

variable {host path : Bytes}

theorem head?_pathPart (h : path.head? = some 0x2f) : (pathPart path).head? = some 0x2f :=
  head?_cut (by decide) (head?_cut (by decide) h)

theorem parseHttp_append (hhost : PlainHost host) (h : path.head? = some 0x2f) :
    parseHttp (host ++ path) =
      if (cut 0x23 path).1.any isControl then none
      else
        (parseHost host).bind fun host' =>
          (unescape .path (pathPart path)).bind fun decoded =>
            (unescape .fragment ((cut 0x23 path).2.getD [])).bind fun _ =>
              some
                { host := host'
                  path := decoded
                  rawPath := if pathPart path = escape .path decoded then [] else pathPart path
                  query := (cut 0x3f (cut 0x23 path).1).2 } := by
  obtain ⟨hhash, hquest, hslash, hctl⟩ := hhost
  have hall : ∀ x ∈ host, (x != 0x2f) = true := by
    intro x hx
    simp only [bne_iff_ne, ne_eq]
    rintro rfl
    exact hslash hx
  obtain ⟨rest, hrest⟩ : ∃ rest, pathPart path = 0x2f :: rest := by
    have hhead := head?_pathPart h
    cases hpart : pathPart path with
    | nil =>
      rw [hpart] at hhead
      cases hhead
    | cons c rest =>
      rw [hpart] at hhead
      cases hhead
      exact ⟨rest, rfl⟩
  have htake : (host ++ pathPart path).takeWhile (· != 0x2f) = host := by
    simp [List.takeWhile_append_of_pos hall, hrest]
  have hdrop : (host ++ pathPart path).dropWhile (· != 0x2f) = pathPart path := by
    simp [List.dropWhile_append_of_pos hall, hrest]
  simp only [parseHttp, cut_append hhash, List.any_append, hctl, Bool.false_or, cut_append hquest]
  rw [show (cut 0x3f (cut 0x23 path).1).1 = pathPart path from rfl, htake, hdrop]
  rfl

theorem parseHttp_of_plain (h : PlainHost host) :
    parseHttp host = (parseHost host).map fun host' => ⟨host', [], [], none⟩ := by
  obtain ⟨hhash, hquest, hslash, hctl⟩ := h
  have hall : ∀ x ∈ host, (x != 0x2f) = true := by
    intro x hx
    simp only [bne_iff_ne, ne_eq]
    rintro rfl
    exact hslash hx
  have htake : host.takeWhile (· != 0x2f) = host := List.takeWhile_eq_self_iff.2 hall
  have hdrop : host.dropWhile (· != 0x2f) = [] := List.dropWhile_eq_nil_iff.2 hall
  simp only [parseHttp, cut_of_not_mem hhash, hctl, cut_of_not_mem hquest, htake, hdrop]
  cases parseHost host <;> rfl

end

/-! ## Decoding twice -/

/-- The path `p`, decoded to `path`, is written the same way when the decoded path is
taken for an encoded one: it has no escape and needs none, or it is how the package
encodes a path that needs an escape and has no percent sign, delimiter or control
character of its own. -/
def Kept (p path : Bytes) : Prop :=
  (0x25 ∉ p ∧ validEncoded .path p = true) ∨
    (p = escape .path path ∧ validEncoded .path path = false ∧ 0x25 ∉ path ∧ 0x3f ∉ path ∧
      0x23 ∉ path ∧ path.any isControl = false)

instance (p path : Bytes) : Decidable (Kept p path) :=
  inferInstanceAs (Decidable ((0x25 ∉ p ∧ validEncoded .path p = true) ∨
    (p = escape .path path ∧ validEncoded .path path = false ∧ 0x25 ∉ path ∧ 0x3f ∉ path ∧
      0x23 ∉ path ∧ path.any isControl = false)))

section

variable {host path p : Bytes} {u : URL}

theorem head?_unescape (h : unescape .path p = some path) (hslash : p.head? = some 0x2f) :
    path.head? = some 0x2f := by
  cases p with
  | nil => cases hslash
  | cons c p =>
    cases hslash
    obtain ⟨t, -, rfl⟩ := unescape_cons_eq_some (by decide) h
    rfl

/-- No delimiter or control character is valid in an encoded path. -/
theorem not_validEncoded_delimiter {c : UInt8} (hc : c = 0x3f ∨ c = 0x23 ∨ isControl c = true) :
    validEncoded .path [c] = false := by
  revert c
  apply forall_byte
  decide +kernel

theorem not_mem_of_validEncoded {c : UInt8} (h : validEncoded .path p = true)
    (hc : c = 0x3f ∨ c = 0x23 ∨ isControl c = true) : c ∉ p := by
  intro hmem
  have hone : validEncoded .path [c] = true := by
    rw [validEncoded, List.all_cons, List.all_nil, Bool.and_true]
    exact List.all_eq_true.1 h c hmem
  rw [not_validEncoded_delimiter hc] at hone
  cases hone

theorem requestPath_eq {raw : Bytes} (hslash : raw.head? = some 0x2f)
    (hdec : unescape .path raw = some u.path)
    (hraw : u.rawPath = if raw = escape .path u.path then [] else raw) :
    u.requestPath = if validEncoded .path raw = true then raw else escape .path u.path := by
  have hhead := head?_unescape hdec hslash
  have hne : raw ≠ [] := by
    rintro rfl
    cases hslash
  have hstar : u.path ≠ ascii "*" := by
    intro heq
    rw [heq] at hhead
    exact absurd hhead (by decide)
  have hnil : escape .path u.path ≠ [] := by
    intro heq
    have hinv := unescape_escape u.path
    rw [heq] at hinv
    rw [← Option.some.inj hinv] at hhead
    cases hhead
  have hescaped : u.escapedPath = if validEncoded .path raw = true then raw else escape .path u.path := by
    unfold URL.escapedPath
    rw [if_neg hstar]
    by_cases heq : raw = escape .path u.path
    · rw [hraw, if_pos heq, if_neg (by simp), ← heq, ite_self]
    · rw [hraw, if_neg heq]
      by_cases hvalid : validEncoded .path raw = true
      · rw [if_pos ⟨hne, hvalid, hdec⟩, if_pos hvalid]
      · rw [if_neg fun h => hvalid h.2.1, if_neg hvalid]
  rw [URL.requestPath, hescaped, if_neg]
  split
  · exact hne
  · exact hnil

theorem pathPart_eq_self (hhash : 0x23 ∉ path) (hquest : 0x3f ∉ path) :
    cut 0x23 path = (path, none) ∧ cut 0x3f path = (path, none) ∧ pathPart path = path := by
  have h1 := cut_of_not_mem hhash
  have h2 := cut_of_not_mem hquest
  refine ⟨h1, h2, ?_⟩
  rw [pathPart, h1, h2]

theorem parseHttp_of_kept (hhost : PlainHost host) (hdec : unescape .path p = some path)
    (hslash : p.head? = some 0x2f) {host' : Bytes} (hhost' : parseHost host = some host')
    (h : Kept p path) :
    ∃ u, parseHttp (host ++ path) = some u ∧ u.requestPath = p ∧ u.query = none ∧ u.path = path ∧
      u.host = host' := by
  have hhead := head?_unescape hdec hslash
  -- in both cases the decoded path has nothing left to decode
  obtain ⟨hno, hquest, hhash, hctl⟩ :
      0x25 ∉ path ∧ 0x3f ∉ path ∧ 0x23 ∉ path ∧ path.any isControl = false := by
    rcases h with ⟨hno, hvalid⟩ | ⟨-, -, hrest⟩
    · rw [unescape_eq_self hno] at hdec
      obtain rfl := Option.some.inj hdec
      refine ⟨hno, not_mem_of_validEncoded hvalid (.inl rfl),
        not_mem_of_validEncoded hvalid (.inr (.inl rfl)), ?_⟩
      rw [List.any_eq_false]
      intro c hc hctl
      exact not_mem_of_validEncoded hvalid (.inr (.inr hctl)) hc
    · exact hrest
  obtain ⟨h1, h2, h3⟩ := pathPart_eq_self hhash hquest
  have hself := unescape_eq_self hno
  refine ⟨⟨host', path, if path = escape .path path then [] else path, none⟩, ?_, ?_, rfl, rfl, rfl⟩
  · rw [parseHttp_append hhost hhead, h1, h2, h3, hctl, hhost', hself]
    rfl
  · rw [requestPath_eq hhead hself rfl]
    rcases h with ⟨hp, hvalid⟩ | ⟨hp, hvalid, -⟩
    · rw [unescape_eq_self hp] at hdec
      obtain rfl := Option.some.inj hdec
      exact if_pos hvalid
    · rw [hvalid, if_neg (by simp), hp]

end

end Dockerset.Go.Url

import Dockerset.GeoSni.HostField
import Dockerset.Go.Search

/-!
# Reading the host of a request (`readHTTPHeader`)

`readHTTPHeader_head` computes what the code returns for a head with one `Host`
field: what it sees in the field, or the host of an absolute request target if
that is nothing. `readHTTPHeader_host_iff` says for which heads this is the host
of the field.
-/

namespace Dockerset.GeoSni
open Go Http

/-! ## Reading the head -/

section

variable (lower : Char → Char)

/-- The host after one more line of the loop in `readHTTPHeader`. -/
def pickHost (host l : Bytes) : Bytes :=
  if isHostLine lower (l ++ crlf) ∧ host = [] then beforePort (hostLineValue (l ++ crlf)) else host

variable {lower}

theorem foldl_pickHost {ls : List Bytes} (h : ∀ l ∈ ls, isHostLine lower (l ++ crlf) = false)
    (host : Bytes) : ls.foldl (pickHost lower) host = host := by
  induction ls with
  | nil => rfl
  | cons l ls ih =>
    obtain ⟨hl, hls⟩ := List.forall_mem_cons.1 h
    have hskip : pickHost lower host l = host := by simp [pickHost, hl]
    rw [List.foldl_cons, hskip, ih hls]

theorem readHeadLines_of_line {buf host l : Bytes} {br br' : Reader}
    (h : br.readString lf = some (l, br')) :
    readHeadLines lower buf host br =
      if l = crlf then
        some (buf ++ l,
          if isHostLine lower l ∧ host = [] then beforePort (hostLineValue l) else host, br')
      else
        readHeadLines lower (buf ++ l)
          (if isHostLine lower l ∧ host = [] then beforePort (hostLineValue l) else host) br' := by
  rw [readHeadLines, h]

theorem readHeadLines_lines {ls : List Bytes} (hls : ∀ l ∈ ls, lf ∉ l ∧ l ≠ []) {buf host v : Bytes}
    {br : Reader} (hrest : br.rest = headOf ls ++ v) :
    ∃ br', readHeadLines lower buf host br =
      some (buf ++ headOf ls, ls.foldl (pickHost lower) host, br') := by
  induction ls generalizing buf host br with
  | nil =>
    obtain ⟨br', hr⟩ := Reader.readString_eq delimited_crlf hrest
    have hblank : isHostLine lower crlf = false := by
      rw [isHostLine, toLower_ascii lower (by decide +kernel)]
      decide
    refine ⟨br', ?_⟩
    rw [readHeadLines_of_line hr, if_pos rfl]
    simp [hblank, headOf]
  | cons l ls ih =>
    obtain ⟨⟨hl, hne⟩, hls⟩ := List.forall_mem_cons.1 hls
    have hdel : Delimited lf (l ++ crlf) := by
      refine ⟨l ++ [0x0d], ?_, by simp [crlf, lf]⟩
      rw [List.mem_append, not_or]
      exact ⟨hl, by decide⟩
    rw [headOf_cons, List.append_assoc] at hrest
    obtain ⟨br₁, hr⟩ := Reader.readString_eq hdel hrest
    have hrest₁ : br₁.rest = headOf ls ++ v := by
      have hsplit := (Reader.took_readString hr).1.rest_eq
      rw [hrest] at hsplit
      exact (List.append_cancel_left hsplit).symm
    have hnot : l ++ crlf ≠ crlf := by
      intro heq
      exact hne (by simpa using heq)
    obtain ⟨br', hr'⟩ : ∃ br',
        readHeadLines lower (buf ++ (l ++ crlf)) (pickHost lower host l) br₁ =
          some (buf ++ (l ++ crlf) ++ headOf ls,
            ls.foldl (pickHost lower) (pickHost lower host l), br') :=
      ih hls hrest₁
    refine ⟨br', ?_⟩
    rw [readHeadLines_of_line hr, if_neg hnot]
    rw [headOf_cons, List.foldl_cons, ← List.append_assoc buf (l ++ crlf)]
    exact hr'

theorem splitCRLF_line {l : Bytes} (hl : lf ∉ l) (piece rest : Bytes) :
    splitCRLF piece (l ++ crlf ++ rest) = (piece ++ l) :: splitCRLF [] rest := by
  induction l generalizing piece with
  | nil => simp [crlf, splitCRLF]
  | cons x l ih =>
    rw [List.mem_cons, not_or] at hl
    -- the next byte is no line feed
    obtain ⟨y, t, hy, hne⟩ : ∃ y t, l ++ crlf ++ rest = y :: t ∧ y ≠ 0x0a := by
      cases l with
      | nil => exact ⟨0x0d, 0x0a :: rest, rfl, by decide⟩
      | cons y l => exact ⟨y, l ++ crlf ++ rest, rfl, fun hy => hl.2 (by simp [lf, hy])⟩
    have hih := ih hl.2 (piece ++ [x])
    rw [hy] at hih
    rw [List.cons_append, List.cons_append, hy, splitCRLF, if_neg (fun h => hne h.2), hih]
    simp

theorem splitCRLF_headOf {ls : List Bytes} (hls : ∀ l ∈ ls, lf ∉ l) :
    splitCRLF [] (headOf ls) = ls ++ [[], []] := by
  induction ls with
  | nil => decide
  | cons l ls ih =>
    obtain ⟨hl, hls⟩ := List.forall_mem_cons.1 hls
    rw [headOf_cons, splitCRLF_line hl, ih hls]
    rfl

theorem hostInLines_eq_none {ls : List Bytes}
    (h : ∀ l ∈ ls, isHostLine lower l = true → hostLineValue l = []) :
    hostInLines lower ls = none := by
  induction ls with
  | nil => rfl
  | cons l ls ih =>
    obtain ⟨hl, hls⟩ := List.forall_mem_cons.1 h
    rw [hostInLines, if_neg (fun hh => hh.2 (hl hh.1)), ih hls]

end

/-! ## The request line -/

theorem containsBytes_eq_isSome (s w : Bytes) : containsBytes s w = (indexBytes s w).isSome :=
  (List.findIdx?_isSome).symm

/-- The host of a request target in absolute form. -/
def absoluteHost (urlHost : Bytes → Option Bytes) (target : Bytes) : Bytes :=
  if (ascii "http://").isPrefixOf target then beforePort ((urlHost target).getD []) else []

namespace HostHead

variable (h : HostHead) {lower : Char → Char} {urlHost : Bytes → Option Bytes}

theorem not_mem_method : 0x20 ∉ h.method ∧ 0x3a ∉ h.method ∧ lf ∉ h.method := by
  obtain ⟨hsolid, hcolon⟩ := token_spec h.method_token
  refine ⟨?_, hcolon, ?_⟩
  · intro hx
    exact absurd (hsolid _ hx) (by decide)
  · intro hx
    exact absurd (hsolid _ hx) (by decide)

theorem not_mem_visibleBytes : 0x20 ∉ h.target ∧ lf ∉ h.target :=
  ⟨not_mem_visible h.target_legal (by decide), not_mem_visible h.target_legal (by decide)⟩

theorem requestLine_index (w : Bytes) (hw : 0x20 ∉ w) :
    indexBytes h.requestLine (0x20 :: w) =
      if w.isPrefixOf h.target then some h.method.length
      else if w.isPrefixOf (ascii "HTTP/1.1") then some (h.target.length + (h.method.length + 1))
      else none := by
  have hversion : indexBytes (ascii "HTTP/1.1") (0x20 :: w) = none := by
    unfold indexBytes
    rw [List.findIdx?_eq_none_iff]
    intro t ht
    rw [← Bool.not_eq_true, List.isPrefixOf_iff_prefix]
    intro hpre
    have hmem : (0x20 : UInt8) ∈ ascii "HTTP/1.1" :=
      ((List.mem_tails _ _).1 ht).subset (hpre.subset List.mem_cons_self)
    exact absurd hmem (by decide)
  rw [requestLine, indexBytes_delim h.not_mem_method.1, isPrefixOf_append_cons hw,
    indexBytes_delim h.not_mem_visibleBytes.1, hversion]
  split
  · rfl
  · split <;> rfl

theorem requestLine_scheme : indexBytes h.requestLine (ascii " http://") =
    if (ascii "http://").isPrefixOf h.target then some h.method.length else none := by
  have hsp : ascii " http://" = 0x20 :: ascii "http://" := by decide
  have hno : (ascii "http://").isPrefixOf (ascii "HTTP/1.1") = false := by decide
  rw [hsp, h.requestLine_index _ (by decide), hno, if_neg Bool.false_ne_true]

section

variable {h} (habs : (ascii "http://").isPrefixOf h.target = true)

include habs

theorem requestLine_start :
    indexBytes h.requestLine (ascii "http://") = some (h.method.length + 1) := by
  have hpre : (ascii "http://").isPrefixOf (h.target ++ 0x20 :: ascii "HTTP/1.1") = true := by
    rw [isPrefixOf_append_cons (by decide), habs]
  have hcolon : (0x3a : UInt8) ∈ ascii "http://" := by decide
  rw [requestLine, indexBytes_across (by decide) hcolon h.not_mem_method.2.1,
    indexBytes_of_prefix hpre]
  exact congrArg some (Nat.zero_add _)

theorem requestLine_end : indexBytes h.requestLine (ascii " HTTP/") =
    some (h.target.length + (h.method.length + 1)) := by
  have hsp : ascii " HTTP/" = 0x20 :: ascii "HTTP/" := by decide
  have hupper : (ascii "HTTP/").isPrefixOf h.target = false := by
    rw [← Bool.not_eq_true, List.isPrefixOf_iff_prefix]
    rw [List.isPrefixOf_iff_prefix] at habs
    intro hpre
    have hpre' := List.prefix_of_prefix_length_le hpre habs (by decide)
    exact absurd hpre' (by decide)
  rw [hsp, h.requestLine_index _ (by decide), hupper]
  rfl

end

theorem requestLine_slice :
    slice h.requestLine (h.method.length + 1) (h.target.length + (h.method.length + 1)) =
      .ok h.target := by
  have hlen : h.target.length + (h.method.length + 1) ≤ h.requestLine.length := by
    simp only [requestLine, List.length_append, List.length_cons]
    omega
  have hdrop : h.requestLine.drop (h.method.length + 1) =
      h.target ++ 0x20 :: ascii "HTTP/1.1" := by
    rw [requestLine, ← List.drop_drop, List.drop_left]
    rfl
  rw [slice_of_le (by omega) hlen, hdrop, Nat.add_sub_cancel, List.take_left]

theorem parseHTTPHost_absolute (hnone : hostInLines lower (splitCRLF [] h.bytes) = none)
    (hfirst : (splitCRLF [] h.bytes).headD [] = h.requestLine) :
    parseHTTPHost lower urlHost h.bytes = .ok (absoluteHost urlHost h.target) := by
  unfold parseHTTPHost
  rw [hnone]
  dsimp only
  rw [hfirst, containsBytes_eq_isSome, h.requestLine_scheme]
  unfold absoluteHost
  by_cases habs : (ascii "http://").isPrefixOf h.target = true
  · rw [if_pos habs, if_pos habs, requestLine_end habs, requestLine_start habs]
    dsimp only [Option.getD_some, Option.isSome_some]
    rw [if_pos rfl, if_pos (by omega), h.requestLine_slice]
    rfl
  · rw [if_neg habs, if_neg habs]
    rfl

theorem requestLine_not_host (tail : Bytes) : isHostLine lower (h.requestLine ++ tail) = false := by
  rw [← Bool.not_eq_true, requestLine, List.append_assoc, List.cons_append,
    isHostLine_iff h.method_token (by decide)]
  intro hhost
  exact absurd hhost.1 (by decide)

theorem requestLine_line : lf ∉ h.requestLine ∧ h.requestLine ≠ [] := by
  refine ⟨?_, by simp [requestLine]⟩
  have hversion : lf ∉ 0x20 :: ascii "HTTP/1.1" := by decide
  have hspace : lf ≠ 0x20 := by decide
  simp only [requestLine, List.mem_append, List.mem_cons, not_or] at hversion ⊢
  exact ⟨h.not_mem_method.2.2, hspace, h.not_mem_visibleBytes.2, hversion⟩

theorem hostLine_line : lf ∉ h.hostLine ∧ h.hostLine ≠ [] := by
  refine ⟨?_, by simp [hostLine]⟩
  have hblank : ∀ a : Bytes, a.all isBlank = true → lf ∉ a := by
    intro a ha hx
    exact absurd (List.all_eq_true.1 ha _ hx) (by decide)
  have hname : lf ∉ h.spelling := by
    intro hx
    exact absurd ((token_spec h.spelling_token).1 _ hx) (by decide)
  have hvalue : lf ∉ h.value := by
    intro hx
    exact absurd (h.value_solid _ hx) (by decide)
  have hcolon : lf ≠ 0x3a := by decide
  simp only [hostLine, List.mem_append, List.mem_cons, not_or]
  exact ⟨hname, hcolon, ⟨hblank _ h.lead_blank, hvalue⟩, hblank _ h.trail_blank⟩

theorem lines_line : ∀ l ∈ h.lines, lf ∉ l ∧ l ≠ [] := by
  intro l hl
  simp only [lines, List.mem_cons, List.mem_append] at hl
  rcases hl with rfl | hl | rfl | hl
  · exact h.requestLine_line
  · exact (h.before_other l hl).line
  · exact h.hostLine_line
  · exact (h.after_other l hl).line

/-- The loop of `readHTTPHeader` comes to the one field. -/
theorem foldl_lines : h.lines.foldl (pickHost lower) [] = h.seen := by
  have hhost : isHostLine lower (h.hostLine ++ crlf) = true := by
    rw [hostLine, List.append_assoc, List.cons_append, isHostLine_iff h.spelling_token (by decide)]
    exact ⟨rfl, h.spelling_host⟩
  have hrequest : pickHost lower [] h.requestLine = [] := by
    simp [pickHost, h.requestLine_not_host]
  have hfield : pickHost lower [] h.hostLine = h.seen := by
    rw [pickHost, if_pos ⟨hhost, rfl⟩, h.beforePort_hostLineValue crlf (by decide +kernel)]
  rw [lines, List.foldl_cons, hrequest, List.foldl_append,
    foldl_pickHost (fun l hl => (h.before_other l hl).not_isHostLine crlf), List.foldl_cons, hfield,
    foldl_pickHost (fun l hl => (h.after_other l hl).not_isHostLine crlf)]

theorem parseHTTPHost_head (hseen : h.seen = []) :
    parseHTTPHost lower urlHost h.bytes = .ok (absoluteHost urlHost h.target) := by
  have hsplit : splitCRLF [] h.bytes = h.lines ++ [[], []] :=
    splitCRLF_headOf fun l hl => (h.lines_line l hl).1
  have hempty : isHostLine lower [] = false := by
    rw [isHostLine, toLower_ascii lower (by simp)]
    decide
  have hvalue : hostLineValue h.hostLine = [] := by
    have hsame := h.beforePort_hostLineValue [] (by simp)
    rw [List.append_nil, hseen] at hsame
    exact beforePort_eq_nil.1 hsame
  -- a line that is no Host field gives nothing
  have other : ∀ l : Bytes, (∀ tail, isHostLine lower (l ++ tail) = false) →
      isHostLine lower l = true → hostLineValue l = [] := by
    intro l hl hhost
    have hno := hl []
    rw [List.append_nil, hhost] at hno
    cases hno
  apply h.parseHTTPHost_absolute
  · rw [hsplit]
    apply hostInLines_eq_none
    intro l hl
    simp only [lines, List.mem_cons, List.mem_append, List.not_mem_nil, or_false, or_self] at hl
    rcases hl with (rfl | hl | rfl | hl) | rfl
    · exact other _ h.requestLine_not_host
    · exact other l (h.before_other l hl).not_isHostLine
    · intro _
      exact hvalue
    · exact other l (h.after_other l hl).not_isHostLine
    · intro hhost
      rw [hempty] at hhost
      cases hhost
  · rw [hsplit]
    rfl

/-- **What `readHTTPHeader` returns** for a head with one `Host` field. -/
theorem readHTTPHeader_head {br : Reader} {v : Bytes} (hrest : br.rest = h.bytes ++ v) :
    ∃ br', readHTTPHeader lower urlHost br =
      .ok (h.bytes, if h.seen = [] then absoluteHost urlHost h.target else h.seen, br') := by
  obtain ⟨br', hlines⟩ : ∃ br', readHeadLines lower [] [] br =
      some ([] ++ h.bytes, h.lines.foldl (pickHost lower) [], br') :=
    readHeadLines_lines h.lines_line hrest
  rw [List.nil_append, h.foldl_lines] at hlines
  refine ⟨br', ?_⟩
  unfold readHTTPHeader
  rw [hlines]
  by_cases hseen : h.seen = []
  · have hparse : parseHTTPHost lower urlHost h.bytes = .ok (absoluteHost urlHost h.target) :=
      h.parseHTTPHost_head hseen
    simp only [hseen, if_true, hparse]
  · simp only [hseen, if_false]

/-- When the host of the field comes out. The field name has to be `Host` or
`host`; the host is a name, not an address in brackets, and not empty before a
port; and `host` with a port does not stand behind `Host`. Where nothing is left
of the value, the target has to name the host. -/
def Met (urlHost : Bytes → Option Bytes) : Prop :=
  match h.host with
  | .ipv6 .. => False
  | .name n _ =>
    if h.spelling ≠ ascii "Host" ∧ h.spelling ≠ ascii "host" then n = h.spelling
    else if n = [] ∧ h.port = none ∨
        h.spelling = ascii "Host" ∧ n = ascii "host" ∧ h.port = some [] then
      absoluteHost urlHost h.target = n
    else n ≠ [] ∧ ¬ (h.spelling = ascii "Host" ∧ n = ascii "host" ∧ h.port ≠ none)

theorem names_iff_met (urlHost : Bytes → Option Bytes) :
    h.host.Names (if h.seen = [] then absoluteHost urlHost h.target else h.seen) ↔
      h.Met urlHost := by
  unfold Met
  cases hhost : h.host with
  | ipv6 addr legal colon =>
    obtain ⟨hne, hwrong⟩ := h.seen_ipv6 hhost
    rw [hhost] at hwrong
    rw [if_neg hne]
    exact iff_of_false hwrong id
  | name n legal =>
    have hseen := h.seen_name hhost
    rw [UriHost.Names]
    dsimp only
    by_cases hother : h.spelling ≠ ascii "Host" ∧ h.spelling ≠ ascii "host"
    · rw [if_pos hother] at hseen ⊢
      rw [hseen, if_neg h.spelling_ne_nil]
      exact eq_comm
    rw [if_neg hother] at hseen ⊢
    cases hport : h.port with
    | none =>
      rw [hport] at hseen
      dsimp only at hseen
      by_cases hn : n = []
      · simp [hseen, hn]
      · simp [hseen, hn]
    | some p =>
      rw [hport] at hseen
      dsimp only at hseen
      by_cases hboth : h.spelling = ascii "Host" ∧ n = ascii "host"
      · rw [if_pos hboth] at hseen
        by_cases hp : p = []
        · simp [hseen, hp, hboth]
        · -- a port is never the name
          have hne : p ≠ ascii "host" := by
            intro heq
            have hdigits := h.port_digits p hport
            rw [heq] at hdigits
            exact absurd hdigits (by decide)
          simp [hseen, hp, hboth, hne]
      · rw [if_neg hboth] at hseen
        have hcond : ¬ (n = [] ∧ some p = none ∨
            h.spelling = ascii "Host" ∧ n = ascii "host" ∧ some p = some []) := by
          rintro (hnone | hempty)
          · cases hnone.2
          · exact hboth ⟨hempty.1, hempty.2.1⟩
        rw [if_neg hcond]
        by_cases hn : n = []
        · rw [if_pos hn] at hseen
          simp [hseen, hn]
        · rw [if_neg hn] at hseen
          rw [hseen, if_neg hn]
          exact iff_of_true rfl ⟨hn, fun hall => hboth ⟨hall.1, hall.2.1⟩⟩

/-- `readHTTPHeader` returns the host of the field. -/
def Understood (lower : Char → Char) (urlHost : Bytes → Option Bytes) (br : Reader) : Prop :=
  ∃ hdr host br', readHTTPHeader lower urlHost br = .ok (hdr, host, br') ∧ h.host.Names host

/-- **When the host of a request is understood**: exactly if the field is written
in one of the two ways that are taken off, and neither its value nor an address
in it has a colon in the wrong place. -/
theorem readHTTPHeader_host_iff (lower : Char → Char) (urlHost : Bytes → Option Bytes) (br : Reader)
    (v : Bytes) (hrest : br.rest = h.bytes ++ v) :
    h.Understood lower urlHost br ↔ h.Met urlHost := by
  obtain ⟨br', hread⟩ : ∃ br', readHTTPHeader lower urlHost br =
      .ok (h.bytes, if h.seen = [] then absoluteHost urlHost h.target else h.seen, br') :=
    h.readHTTPHeader_head hrest
  rw [← h.names_iff_met urlHost]
  constructor
  · intro hnames
    obtain ⟨hdr, host, br'', hread', hnames⟩ := hnames
    rw [hread] at hread'
    cases hread'
    exact hnames
  · intro hnames
    exact ⟨_, _, br', hread, hnames⟩

/-- A request for `/` with a field of this spelling and value. -/
def sample (spelling : Bytes) (host : UriHost) (port : Option Bytes)
    (hspelling : spelling.map lowerByte = ascii "host")
    (hport : ∀ p ∈ port, p.all isDigitByte = true) : HostHead where
  method := ascii "GET"
  target := ascii "/"
  before := [ascii "Accept: */*"]
  spelling := spelling
  lead := ascii " "
  host := host
  port := port
  trail := []
  after := []
  method_token := by decide
  target_legal := by decide
  before_other := by
    intro l hl
    rw [List.mem_singleton.1 hl]
    have hfield : OtherLine (ascii "Accept" ++ 0x3a :: ascii " */*") :=
      .field (by decide) (by decide) (by decide)
    exact hfield
  spelling_host := hspelling
  lead_blank := by decide
  port_digits := hport
  trail_blank := by decide
  after_other := by simp
  after_field := by simp

/-- The reader of a connection that delivers the head in one piece. -/
def reader : Reader := ⟨h.bytes, []⟩

/-- `host: a:80`. -/
def plainHead : HostHead :=
  sample (ascii "host") (.name (ascii "a") (by decide)) (some (ascii "80")) (by decide) (by decide)

theorem readHTTPHeader_host_plain :
    plainHead.Met some ∧ plainHead.Understood id some plainHead.reader := by
  have hmet : plainHead.Met some := by
    unfold Met
    split
    · next hhost => cases hhost
    · next hhost =>
      cases hhost
      rw [if_neg (by decide), if_neg (by decide)]
      decide
  exact ⟨hmet, (plainHead.readHTTPHeader_host_iff id some plainHead.reader [] (by
    simp [reader, Reader.rest])).2 hmet⟩

/-- `HOST: a`. -/
def upperHead : HostHead :=
  sample (ascii "HOST") (.name (ascii "a") (by decide)) none (by decide) (by simp)

/-- `Host: [::1]:80`. -/
def bracketHead : HostHead :=
  sample (ascii "Host") (.ipv6 (ascii "::1") (by decide) (by decide)) (some (ascii "80"))
    (by decide) (by decide)

/-- `Host: host:80`. -/
def twiceHead : HostHead :=
  sample (ascii "Host") (.name (ascii "host") (by decide)) (some (ascii "80"))
    (by decide) (by decide)

variable {h} in
theorem not_understood (host : Bytes)
    (hread : readHTTPHeader id some h.reader = .ok (h.bytes, host, ⟨[], []⟩))
    (hwrong : ¬ h.host.Names host) : ¬ h.Understood id some h.reader := by
  intro hu
  obtain ⟨hdr, host', br', hread', hnames⟩ := hu
  rw [hread] at hread'
  cases hread'
  exact hwrong hnames

/-- The name of the field, the first bytes of the address and the port come out as
the host. -/
theorem readHTTPHeader_host_misread :
    ¬ upperHead.Understood id some upperHead.reader ∧
    ¬ bracketHead.Understood id some bracketHead.reader ∧
    ¬ twiceHead.Understood id some twiceHead.reader := by
  refine ⟨?_, ?_, ?_⟩
  · apply not_understood (ascii "HOST") (by decide +kernel)
    intro hnames
    exact absurd (show ascii "HOST" = ascii "a" from hnames) (by decide)
  · apply not_understood (ascii "[") (by decide +kernel)
    intro hnames
    have hnames : ascii "[" = ascii "[::1]" ∨ ascii "[" = ascii "::1" := hnames
    exact absurd hnames (by decide)
  · apply not_understood (ascii "80") (by decide +kernel)
    intro hnames
    exact absurd (show ascii "80" = ascii "host" from hnames) (by decide)

end HostHead

end Dockerset.GeoSni

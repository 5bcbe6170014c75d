import Dockerset.GeoSni.HttpHead
import Dockerset.Go.Lowercase
import Dockerset.Go.Trim

/-!
# The `Host` field of a request

A field name may be written in upper and lower case, and the value of `Host` is a
registered name, an IPv4 address or an IPv6 address in brackets, with or without
a port. `HostHead` is a request head with one such field, and `HostHead.seen` what
the code sees in it: the field is recognised in every spelling, but only the names
`Host:` and `host:` are taken off, one after the other, and the host ends at the
first colon.
-/

namespace Dockerset.GeoSni
open Go Http

/-! ## Heads with one `Host` field -/

def isDigitByte (x : UInt8) : Bool := 0x30 ≤ x && x ≤ 0x39

/-- The bytes of a registered name; an IPv4 address is made of them, too. -/
def isRegNameByte (x : UInt8) : Bool :=
  isDigitByte x || (0x41 ≤ x && x ≤ 0x5a) || (0x61 ≤ x && x ≤ 0x7a) ||
    (ascii "-._~%!$&'()*+,;=").contains x

/-- The bytes of an IPv6 address. -/
def isIPv6Byte (x : UInt8) : Bool :=
  isDigitByte x || (0x41 ≤ x && x ≤ 0x46) || (0x61 ≤ x && x ≤ 0x66) || x == 0x3a || x == 0x2e

/-- A host as in a URI. -/
inductive UriHost where
  | name (n : Bytes) (legal : n.all isRegNameByte = true)
  | ipv6 (addr : Bytes) (legal : addr.all isIPv6Byte = true) (colon : 0x3a ∈ addr)

namespace UriHost

def text : UriHost → Bytes
  | name n _ => n
  | ipv6 addr _ _ => 0x5b :: (addr ++ [0x5d])

/-- The byte string names the host; the brackets of an address may be missing. -/
def Names (host : Bytes) : UriHost → Prop
  | name n _ => host = n
  | ipv6 addr _ _ => host = 0x5b :: (addr ++ [0x5d]) ∨ host = addr

end UriHost

def portText : Option Bytes → Bytes
  | none => []
  | some p => 0x3a :: p

/-- A line of the head with no part in a `Host` field: a field of another name, or
the continuation of one. -/
inductive OtherLine : Bytes → Prop where
  | field {name text : Bytes} (token : name.all isTokenByte = true)
      (other : name.map lowerByte ≠ ascii "host") (line : lf ∉ text) :
      OtherLine (name ++ 0x3a :: text)
  | fold {x : UInt8} {text : Bytes} (blank : isBlank x = true) (line : lf ∉ text) :
      OtherLine (x :: text)

/-- A request head with one `Host` field. -/
structure HostHead where
  method : Bytes
  target : Bytes
  before : List Bytes
  spelling : Bytes
  lead : Bytes
  host : UriHost
  port : Option Bytes
  trail : Bytes
  after : List Bytes
  method_token : method.all isTokenByte = true
  target_legal : target.all isVisible = true
  before_other : ∀ l ∈ before, OtherLine l
  spelling_host : spelling.map lowerByte = ascii "host"
  lead_blank : lead.all isBlank = true
  port_digits : ∀ p ∈ port, p.all isDigitByte = true
  trail_blank : trail.all isBlank = true
  after_other : ∀ l ∈ after, OtherLine l
  -- the value of the field is not continued
  after_field : ∀ l ∈ after.head?, ∀ x ∈ l.head?, isBlank x = false

/-- Lines and the blank line, each with its end. -/
def headOf (lines : List Bytes) : Bytes := lines.flatMap (· ++ crlf) ++ crlf

theorem headOf_cons (l : Bytes) (lines : List Bytes) :
    headOf (l :: lines) = l ++ crlf ++ headOf lines := by
  rw [headOf, List.flatMap_cons, List.append_assoc]
  rfl

namespace HostHead

variable (h : HostHead)

def value : Bytes := h.host.text ++ portText h.port

def requestLine : Bytes := h.method ++ 0x20 :: (h.target ++ 0x20 :: ascii "HTTP/1.1")

def hostLine : Bytes := h.spelling ++ 0x3a :: (h.lead ++ h.value ++ h.trail)

def lines : List Bytes := h.requestLine :: (h.before ++ h.hostLine :: h.after)

def bytes : Bytes := headOf h.lines

end HostHead

/-! ## Finding the line -/

section

variable {lower : Char → Char}

theorem lowerByte_eq_colon {x : UInt8} : lowerByte x = 0x3a ↔ x = 0x3a := by
  have hall : ∀ n : Fin 256, lowerByte (.ofFin n) = 0x3a ↔ UInt8.ofFin n = 0x3a := by decide +kernel
  exact hall x.toFin

/-- The digits and letters are visible, and none is a colon. -/
theorem alphanumeric_spec {x : UInt8}
    (h : (0x30 ≤ x ∧ x ≤ 0x39) ∨ (0x41 ≤ x ∧ x ≤ 0x5a) ∨ (0x61 ≤ x ∧ x ≤ 0x7a)) :
    SolidByte x ∧ x ≠ 0x3a := by
  have hall : ∀ n : Fin 256, (0x30 ≤ n.val ∧ n.val ≤ 0x39) ∨ (0x41 ≤ n.val ∧ n.val ≤ 0x5a) ∨
      (0x61 ≤ n.val ∧ n.val ≤ 0x7a) → 0x20 < n.val ∧ n.val < 0x7f ∧ n.val ≠ 0x3a := by
    intro n hn
    omega
  simp only [UInt8.le_iff_toNat_le] at h
  obtain ⟨hlo, hhi, hcolon⟩ := hall x.toFin h
  refine ⟨solidByte_of_visible (UInt8.lt_iff_toNat_lt.2 hlo) (UInt8.lt_iff_toNat_lt.2 hhi), ?_⟩
  rintro rfl
  exact hcolon rfl

theorem tokenByte_spec {x : UInt8} (h : isTokenByte x = true) : SolidByte x ∧ x ≠ 0x3a := by
  have hmarks : (ascii "!#$%&'*+-.^_`|~").all (fun y => decide (SolidByte y ∧ y ≠ 0x3a)) = true := by
    decide
  simp only [isTokenByte, Bool.or_eq_true, Bool.and_eq_true, decide_eq_true_eq, or_assoc] at h
  rcases h with h | h | h | h
  · exact alphanumeric_spec (.inl h)
  · exact alphanumeric_spec (.inr (.inl h))
  · exact alphanumeric_spec (.inr (.inr h))
  · exact of_decide_eq_true (List.all_eq_true.1 hmarks x (List.contains_iff_mem.1 h))

theorem token_spec {name : Bytes} (h : name.all isTokenByte = true) :
    (∀ x ∈ name, SolidByte x) ∧ 0x3a ∉ name := by
  rw [List.all_eq_true] at h
  constructor
  · intro x hx
    exact (tokenByte_spec (h x hx)).1
  · intro hx
    exact (tokenByte_spec (h _ hx)).2 rfl

theorem host_prefix_iff {m t : Bytes} {d : UInt8} (hm : 0x3a ∉ m) (hd : d ∉ ascii "host") :
    (ascii "host:").isPrefixOf (m ++ d :: t) = true ↔ d = 0x3a ∧ m = ascii "host" := by
  have hhost : ascii "host:" = ascii "host" ++ [0x3a] := by decide
  rw [List.isPrefixOf_iff_prefix, hhost]
  constructor
  · intro hpre
    obtain ⟨r, hr⟩ := hpre
    rw [List.append_assoc, List.append_eq_append_iff] at hr
    rcases hr with ⟨a, ha, hr⟩ | ⟨a, ha, hr⟩
    · rcases a with _ | ⟨x, a⟩
      · cases hr
        exact ⟨rfl, by rw [ha, List.append_nil]⟩
      · cases hr
        exact absurd (by rw [ha]; simp) hm
    · rcases a with _ | ⟨x, a⟩
      · cases hr
        exact ⟨rfl, by rw [ha, List.append_nil]⟩
      · cases hr
        exact absurd (by rw [ha]; simp) hd
  · intro h
    obtain ⟨rfl, rfl⟩ := h
    exact ⟨t, by simp⟩

/-- What comes before the first delimiter decides. -/
theorem isHostLine_iff {name text : Bytes} {d : UInt8} (hname : name.all isTokenByte = true)
    (hd : d ∈ [0x09, 0x20, 0x3a]) :
    isHostLine lower (name ++ d :: text) = true ↔ d = 0x3a ∧ name.map lowerByte = ascii "host" := by
  have hdelim : ∀ x ∈ [(0x09 : UInt8), 0x20, 0x3a],
      x < 0x80 ∧ lowerByte x = x ∧ x ∉ ascii "host" := by decide +kernel
  obtain ⟨hascii, hlow, hletter⟩ := hdelim d hd
  obtain ⟨hsolid, hcolon⟩ := token_spec hname
  have hcolon' : 0x3a ∉ name.map lowerByte := by
    intro hx
    obtain ⟨x, hx, heq⟩ := List.mem_map.1 hx
    rw [lowerByte_eq_colon.1 heq] at hx
    exact hcolon hx
  have hall : ∀ x ∈ name, x < 0x80 := fun x hx => (hsolid x hx).1
  rw [isHostLine, toLower_append lower hascii, toLower_ascii lower hall, hlow]
  exact host_prefix_iff hcolon' hletter

theorem OtherLine.not_isHostLine {l : Bytes} (h : OtherLine l) (tail : Bytes) :
    isHostLine lower (l ++ tail) = false := by
  rw [← Bool.not_eq_true]
  rcases h with ⟨token, other, -⟩ | ⟨blank, -⟩
  · rw [List.append_assoc, List.cons_append, isHostLine_iff token (by simp)]
    intro hhost
    exact other hhost.2
  · next x text =>
    have hx : x = 0x09 ∨ x = 0x20 := by simpa [isBlank] using blank
    have hfirst : x :: text ++ tail = [] ++ x :: (text ++ tail) := rfl
    rw [hfirst, isHostLine_iff (by decide) (by simp [or_assoc.symm, hx])]
    rintro ⟨rfl, -⟩
    exact absurd hx (by decide)

theorem OtherLine.line {l : Bytes} (h : OtherLine l) : lf ∉ l ∧ l ≠ [] := by
  have hblank : ∀ x : UInt8, isBlank x = true → lf ≠ x := by
    intro x hx
    have hx : x = 0x09 ∨ x = 0x20 := by simpa [isBlank] using hx
    rcases hx with rfl | rfl <;> decide
  rcases h with ⟨token, -, line⟩ | ⟨blank, line⟩
  · refine ⟨?_, by simp⟩
    intro hmem
    rcases List.mem_append.1 hmem with hmem | hmem
    · exact absurd ((token_spec token).1 lf hmem) (by decide)
    · rcases List.mem_cons.1 hmem with hcolon | hmem
      · exact absurd hcolon (by decide)
      · exact line hmem
  · refine ⟨?_, by simp⟩
    intro hmem
    rcases List.mem_cons.1 hmem with hx | hmem
    · exact hblank _ blank hx
    · exact line hmem

end

/-! ## The value of the line -/

theorem trimPre_of_ne {name spelling t : Bytes} (hlen : spelling.length = name.length)
    (hne : spelling ≠ name) :
    trimPre (spelling ++ 0x3a :: t) (name ++ [0x3a]) = spelling ++ 0x3a :: t := by
  have hpre : ¬ (name ++ [0x3a]).isPrefixOf (spelling ++ 0x3a :: t) = true := by
    rw [List.isPrefixOf_iff_prefix]
    intro hpre
    obtain ⟨r, hr⟩ := hpre
    rw [List.append_assoc] at hr
    exact hne (List.append_inj hr hlen.symm).1.symm
  rw [trimPre, if_neg hpre]

section

variable {h : Bytes}

theorem beforePort_of_not_mem (hc : 0x3a ∉ h) : beforePort h = h := by
  rw [beforePort, List.idxOf?_eq_none_iff.2 hc]

theorem beforePort_append {n t : Bytes} (hn : n ≠ []) (hc : 0x3a ∉ n) :
    beforePort (n ++ 0x3a :: t) = n := by
  have hidx : (n ++ 0x3a :: t).idxOf? 0x3a = some n.length := by
    clear hn
    induction n with
    | nil => rfl
    | cons x n ih =>
      rw [List.mem_cons, not_or] at hc
      have hx : (x == 0x3a) = false := beq_false_of_ne fun hx => hc.1 hx.symm
      rw [List.cons_append, List.idxOf?_cons, hx, ih hc.2]
      rfl
  rw [beforePort, hidx]
  dsimp only
  rw [if_pos (List.length_pos_iff.2 hn), List.take_left]

theorem beforePort_colon (t : Bytes) : beforePort (0x3a :: t) = 0x3a :: t := by
  rw [beforePort]
  rfl

theorem beforePort_eq_nil : beforePort h = [] ↔ h = [] := by
  by_cases hc : 0x3a ∈ h
  · obtain ⟨n, t, rfl, hn⟩ := List.eq_append_cons_of_mem hc
    by_cases hne : n = []
    · rw [hne, List.nil_append, beforePort_colon]
    · rw [beforePort_append hne hn]
      simp [hne]
  · rw [beforePort_of_not_mem hc]

end

theorem digit_solid {x : UInt8} (h : isDigitByte x = true) : SolidByte x := by
  simp only [isDigitByte, Bool.and_eq_true, decide_eq_true_eq] at h
  exact (alphanumeric_spec (.inl h)).1

theorem regName_solid {x : UInt8} (h : isRegNameByte x = true) : SolidByte x := by
  have hmarks : (ascii "-._~%!$&'()*+,;=").all (SolidByte ·) = true := by decide
  simp only [isRegNameByte, Bool.or_eq_true, Bool.and_eq_true, decide_eq_true_eq, or_assoc] at h
  rcases h with h | h | h | h
  · exact digit_solid h
  · exact (alphanumeric_spec (.inr (.inl h))).1
  · exact (alphanumeric_spec (.inr (.inr h))).1
  · exact of_decide_eq_true (List.all_eq_true.1 hmarks x (List.contains_iff_mem.1 h))

theorem ipv6_solid {x : UInt8} (h : isIPv6Byte x = true) : SolidByte x := by
  simp only [isIPv6Byte, Bool.or_eq_true, Bool.and_eq_true, decide_eq_true_eq, beq_iff_eq,
    or_assoc] at h
  rcases h with h | h | h | rfl | rfl
  · exact digit_solid h
  · have hle : x ≤ 0x5a := UInt8.le_trans h.2 (by decide)
    exact (alphanumeric_spec (.inr (.inl ⟨h.1, hle⟩))).1
  · have hle : x ≤ 0x7a := UInt8.le_trans h.2 (by decide)
    exact (alphanumeric_spec (.inr (.inr ⟨h.1, hle⟩))).1
  · decide
  · decide

theorem UriHost.text_solid (u : UriHost) : ∀ x ∈ u.text, SolidByte x := by
  intro x hx
  rcases u with ⟨n, legal⟩ | ⟨addr, legal, colon⟩
  · exact regName_solid (List.all_eq_true.1 legal x hx)
  · rcases List.mem_cons.1 hx with rfl | hx
    · decide
    rcases List.mem_append.1 hx with hx | hx
    · exact ipv6_solid (List.all_eq_true.1 legal x hx)
    · rw [List.mem_singleton.1 hx]
      decide

namespace HostHead

variable (h : HostHead)

theorem port_solid : ∀ x ∈ portText h.port, SolidByte x := by
  intro x hx
  have hdigits := h.port_digits
  cases hp : h.port with
  | none =>
    rw [hp] at hx
    cases hx
  | some p =>
    rw [hp] at hx hdigits
    rcases List.mem_cons.1 hx with rfl | hx
    · decide
    · exact digit_solid (List.all_eq_true.1 (hdigits p rfl) x hx)

theorem value_solid : ∀ x ∈ h.value, SolidByte x :=
  List.forall_mem_append.2 ⟨h.host.text_solid, h.port_solid⟩

theorem space_of_blank {a : Bytes} (ha : a.all isBlank = true) : ∀ x ∈ a, SpaceByte x := by
  intro x hx
  have hx := List.all_eq_true.1 ha x hx
  have hx : x = 0x09 ∨ x = 0x20 := by simpa [isBlank] using hx
  rcases hx with rfl | rfl <;> decide

end HostHead

theorem trimSpaceBytes_field {spelling w b : Bytes} (hs : ∀ x ∈ spelling, SolidByte x)
    (hlast : ∀ x, w.getLast? = some x → SolidByte x) (hb : ∀ x ∈ b, SpaceByte x) :
    trimSpaceBytes (spelling ++ 0x3a :: w ++ b) = spelling ++ 0x3a :: w := by
  have h := trimSpaceBytes_eq (a := []) (w := spelling ++ 0x3a :: w) (by simp) hb
  apply h
  · intro x hx
    cases spelling with
    | nil =>
      cases hx
      decide
    | cons y spelling =>
      cases hx
      exact hs _ List.mem_cons_self
  · intro x hx
    rw [List.getLast?_append_of_ne_nil _ (by simp), List.getLast?_cons] at hx
    cases hw : w.getLast? with
    | none =>
      rw [hw] at hx
      cases hx
      decide
    | some y =>
      rw [hw] at hx
      cases hx
      exact hlast _ hw

theorem trimSpaceBytes_line {spelling lead value tail : Bytes}
    (hs : ∀ x ∈ spelling, SolidByte x) (hlead : ∀ x ∈ lead, SpaceByte x)
    (hv : ∀ x ∈ value, SolidByte x) (htail : ∀ x ∈ tail, SpaceByte x) :
    ∃ w, trimSpaceBytes (spelling ++ 0x3a :: (lead ++ value ++ tail)) = spelling ++ 0x3a :: w ∧
      trimSpaceBytes (spelling ++ 0x3a :: w) = spelling ++ 0x3a :: w ∧
      trimSpaceBytes w = value := by
  have hall : ∀ x ∈ lead ++ tail, SpaceByte x := List.forall_mem_append.2 ⟨hlead, htail⟩
  by_cases hne : value = []
  · refine ⟨[], ?_, ?_, ?_⟩
    · have h := trimSpaceBytes_field (w := []) hs (by simp) hall
      simpa [hne] using h
    · have h := trimSpaceBytes_field (w := []) (b := []) hs (by simp) (by simp)
      simpa using h
    · rw [hne]
      rfl
  · have hlast : ∀ x, (lead ++ value).getLast? = some x → SolidByte x := by
      intro x hx
      rw [List.getLast?_append_of_ne_nil _ hne] at hx
      exact hv x (List.mem_of_getLast? hx)
    refine ⟨lead ++ value, ?_, ?_, ?_⟩
    · have h := trimSpaceBytes_field hs hlast htail
      simpa using h
    · have h := trimSpaceBytes_field (b := []) hs hlast (by simp)
      simpa using h
    · have h := trimSpaceBytes_solid hv (a := lead) (b := []) hlead (by simp)
      simpa using h

namespace HostHead

variable (h : HostHead)

/-- The host that the code sees in the field. -/
def seen : Bytes :=
  if h.spelling = ascii "Host" then beforePort (trimPre h.value (ascii "host:"))
  else if h.spelling = ascii "host" then beforePort h.value
  else h.spelling

theorem spelling_length : h.spelling.length = 4 := by
  have hlen := congrArg List.length h.spelling_host
  rw [List.length_map] at hlen
  exact hlen

theorem spelling_ne_nil : h.spelling ≠ [] := by
  intro hnil
  have hlen := h.spelling_length
  rw [hnil] at hlen
  cases hlen

theorem spelling_token : h.spelling.all isTokenByte = true := by
  have hhost : (ascii "host").all isTokenByte = true := by decide
  rw [List.all_eq_true]
  intro x hx
  have hmem : lowerByte x ∈ ascii "host" := by
    rw [← h.spelling_host]
    exact List.mem_map_of_mem hx
  unfold lowerByte at hmem
  split at hmem
  · next hupper => simp [isTokenByte, hupper]
  · exact List.all_eq_true.1 hhost x hmem

/-- **What the code sees in the field**, whatever white space ends the line. -/
theorem beforePort_hostLineValue (tail : Bytes) (htail : ∀ x ∈ tail, SpaceByte x) :
    beforePort (hostLineValue (h.hostLine ++ tail)) = h.seen := by
  have hlead := space_of_blank h.lead_blank
  have hend : ∀ x ∈ h.trail ++ tail, SpaceByte x :=
    List.forall_mem_append.2 ⟨space_of_blank h.trail_blank, htail⟩
  have hline : h.hostLine ++ tail =
      h.spelling ++ 0x3a :: (h.lead ++ h.value ++ (h.trail ++ tail)) := by
    simp [hostLine]
  have hHost : ascii "Host:" = ascii "Host" ++ [0x3a] := by decide
  have hhost : ascii "host:" = ascii "host" ++ [0x3a] := by decide
  obtain ⟨hsolid, hcolon⟩ := token_spec h.spelling_token
  obtain ⟨w, hw, hw', hvalue⟩ := trimSpaceBytes_line hsolid hlead h.value_solid hend
  unfold hostLineValue seen
  rw [hline]
  by_cases hupper : h.spelling = ascii "Host"
  · -- both prefixes are tried on the value
    have hfirst : trimPre (h.spelling ++ 0x3a :: (h.lead ++ h.value ++ (h.trail ++ tail)))
        (ascii "Host:") = h.lead ++ h.value ++ (h.trail ++ tail) := by
      rw [hupper, hHost, ← List.singleton_append, ← List.append_assoc, trimPre_append]
    have hsolid' : ∀ x ∈ trimPre h.value (ascii "host:"), SolidByte x := by
      intro x hx
      unfold trimPre at hx
      split at hx
      · exact h.value_solid x (List.mem_of_mem_drop hx)
      · exact h.value_solid x hx
    have hsecond := trimSpaceBytes_solid hsolid' (a := []) (b := []) (by simp) (by simp)
    rw [List.nil_append, List.append_nil] at hsecond
    rw [if_pos hupper, hfirst, trimSpaceBytes_solid h.value_solid hlead hend, hsecond]
  rw [if_neg hupper, hHost, trimPre_of_ne h.spelling_length hupper, hw]
  by_cases hlow : h.spelling = ascii "host"
  · have hsecond : trimPre (h.spelling ++ 0x3a :: w) (ascii "host:") = w := by
      rw [hlow, hhost, ← List.singleton_append, ← List.append_assoc, trimPre_append]
    rw [if_pos hlow, hsecond, hvalue]
  · rw [if_neg hlow, hhost, trimPre_of_ne h.spelling_length hlow, hw',
      beforePort_append h.spelling_ne_nil hcolon]

section

variable {n addr : Bytes} {legal : n.all isRegNameByte = true} {legal' : addr.all isIPv6Byte = true}
  {colon : 0x3a ∈ addr}

theorem seen_ipv6 (hhost : h.host = .ipv6 addr legal' colon) :
    h.seen ≠ [] ∧ ¬ h.host.Names h.seen := by
  obtain ⟨u, t, haddr, hu⟩ := List.eq_append_cons_of_mem colon
  have hvalue : h.value = (0x5b :: u) ++ 0x3a :: (t ++ [0x5d] ++ portText h.port) := by
    simp [value, hhost, UriHost.text, haddr]
  have hcut : beforePort h.value = 0x5b :: u := by
    rw [hvalue]
    apply beforePort_append (by simp)
    rw [List.mem_cons, not_or]
    exact ⟨by decide, hu⟩
  have htrim : trimPre h.value (ascii "host:") = h.value := by
    rw [hvalue, List.cons_append]
    rfl
  have hbracket : (0x5b : UInt8) ∉ addr := by
    intro hx
    exact absurd (List.all_eq_true.1 legal' _ hx) (by decide)
  have hwrong : ¬ h.host.Names (0x5b :: u) := by
    rw [hhost]
    rintro (heq | heq)
    · have hlen := congrArg List.length heq
      simp only [haddr, List.length_cons, List.length_append] at hlen
      omega
    · exact hbracket (by rw [← heq]; exact List.mem_cons_self)
  unfold seen
  rw [htrim, hcut]
  split
  · exact ⟨by simp, hwrong⟩
  split
  · exact ⟨by simp, hwrong⟩
  refine ⟨h.spelling_ne_nil, ?_⟩
  have hname := (token_spec h.spelling_token).2
  rw [hhost]
  rintro (heq | heq)
  · exact hname (by rw [heq]; simp [colon])
  · exact hname (by rw [heq]; exact colon)

/-- The three ways to write the field name, the two that are taken off together. -/
theorem seen_eq : h.seen =
    if h.spelling ≠ ascii "Host" ∧ h.spelling ≠ ascii "host" then h.spelling
    else beforePort (if h.spelling = ascii "Host" then trimPre h.value (ascii "host:") else h.value) := by
  have hspell : ascii "host" ≠ ascii "Host" := by decide
  unfold seen
  by_cases hH : h.spelling = ascii "Host"
  · simp [hH]
  · by_cases hl : h.spelling = ascii "host"
    · simp [hl, hspell]
    · simp [hH, hl]

theorem seen_name (hhost : h.host = .name n legal) :
    h.seen =
      if h.spelling ≠ ascii "Host" ∧ h.spelling ≠ ascii "host" then h.spelling
      else match h.port with
        | none => n
        | some p =>
          if h.spelling = ascii "Host" ∧ n = ascii "host" then p
          else if n = [] then 0x3a :: p else n := by
  have hcolon : 0x3a ∉ n := by
    intro hx
    exact absurd (List.all_eq_true.1 legal _ hx) (by decide)
  have hvalue : h.value = n ++ portText h.port := by rw [value, hhost, UriHost.text]
  rw [h.seen_eq, hvalue]
  congr 1
  cases hport : h.port with
  | none =>
    have htrim : trimPre n (ascii "host:") = n := by
      have hpre : ¬ (ascii "host:").isPrefixOf n = true := by
        rw [List.isPrefixOf_iff_prefix]
        intro hpre
        exact hcolon (hpre.subset (by decide))
      rw [trimPre, if_neg hpre]
    rw [portText, List.append_nil, htrim, ite_self, beforePort_of_not_mem hcolon]
  | some p =>
    have hp : 0x3a ∉ p := by
      intro hx
      exact absurd (List.all_eq_true.1 (h.port_digits p hport) _ hx) (by decide)
    have hcut : beforePort (n ++ 0x3a :: p) = if n = [] then 0x3a :: p else n := by
      split
      · next hn => rw [hn, List.nil_append, beforePort_colon]
      · next hn => rw [beforePort_append hn hcolon]
    have hpre := host_prefix_iff (t := p) hcolon (d := 0x3a) (by decide)
    rw [portText]
    dsimp only
    by_cases hboth : h.spelling = ascii "Host" ∧ n = ascii "host"
    · rw [if_pos hboth, if_pos hboth.1, trimPre, if_pos (hpre.2 ⟨rfl, hboth.2⟩), hboth.2]
      exact beforePort_of_not_mem hp
    · have hkept : (if h.spelling = ascii "Host" then trimPre (n ++ 0x3a :: p) (ascii "host:")
          else n ++ 0x3a :: p) = n ++ 0x3a :: p := by
        split
        · next hH => rw [trimPre, if_neg (fun hh => hboth ⟨hH, (hpre.1 hh).2⟩)]
        · rfl
      rw [if_neg hboth, hkept, hcut]

end

end HostHead

end Dockerset.GeoSni

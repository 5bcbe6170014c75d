import Dockerset.Go.Url
import Mathlib.Data.List.DropRight

/-!
# CONNECT requests of HTTP/1.1

A reader of CONNECT requests, to say what a proxy makes of the bytes it gets: lines
end with CR LF, the request line has three words with one space between them, a
field has a name, a colon and a value, and an empty line ends the head. The target
is in authority form, the host of a URI, a colon and a port, and the host is a
registered name or an address in brackets. Requests with other methods are not read.
-/

namespace Dockerset.Http
open Go

def isDigit (x : UInt8) : Bool := 0x30 ≤ x && x ≤ 0x39

def isAlpha (x : UInt8) : Bool := (0x41 ≤ x && x ≤ 0x5a) || (0x61 ≤ x && x ≤ 0x7a)

/-- The bytes of a token. -/
def isTokenByte (x : UInt8) : Bool :=
  (0x30 ≤ x && x ≤ 0x39) || (0x41 ≤ x && x ≤ 0x5a) || (0x61 ≤ x && x ≤ 0x7a) ||
    (ascii "!#$%&'*+-.^_`|~").contains x

/-- The visible bytes, with those outside ASCII. -/
def isVisible (x : UInt8) : Bool := 0x20 < x && x != 0x7f

/-- The bytes of a field value. -/
def isFieldByte (x : UInt8) : Bool := x == 0x09 || x == 0x20 || isVisible x

def isBlank (x : UInt8) : Bool := x == 0x09 || x == 0x20

/-! ## The target -/

/-- A byte of a registered name that stands for itself: `unreserved` or `sub-delims`. -/
def isNameByte (x : UInt8) : Bool := isAlpha x || isDigit x || (ascii "-._~!$&'()*+,;=").contains x

/-- `reg-name`. -/
def isRegName : Bytes → Bool
  | [] => true
  | 0x25 :: a :: b :: s => Url.isHex a && Url.isHex b && isRegName s
  | x :: s => isNameByte x && isRegName s

/-- `IPv4address`. -/
def isIPv4 (s : Bytes) : Bool :=
  let octets := s.splitOn 0x2e
  octets.length == 4 && octets.all fun o => (List.range 256).any fun n => o == ascii (Nat.repr n)

/-- `h16`. -/
def isH16 (s : Bytes) : Bool := 0 < s.length && s.length ≤ 4 && s.all Url.isHex

/-- How many groups of 16 bits there are; an IPv4 address may stand for the last two. -/
def groups : List Bytes → Option Nat
  | [] => some 0
  | [s] => if isH16 s then some 1 else if isIPv4 s then some 2 else none
  | s :: ss => if isH16 s then (groups ss).map (· + 1) else none

/-- The pieces between the colons. -/
def pieces (s : Bytes) : List Bytes := if s = [] then [] else s.splitOn 0x3a

/-- `IPv6address`: eight groups, or fewer with one `::` for the missing ones. -/
def isIPv6 (s : Bytes) : Bool :=
  groups (pieces s) == some 8 || (List.range s.length).any fun i =>
    (s.drop i).take 2 == ascii "::" && (pieces (s.take i)).all isH16 &&
      (groups (pieces (s.drop (i + 2)))).any fun n => (pieces (s.take i)).length + n ≤ 7

/-- `IPvFuture`, of bytes that may stand in one. -/
def isIPvFuture (s : Bytes) : Bool :=
  let version := s.tail.takeWhile Url.isHex
  let rest := s.tail.dropWhile Url.isHex
  (s.head? == some 0x76 || s.head? == some 0x56) && version != [] && rest.head? == some 0x2e &&
    rest.tail != []

/-- `IP-literal`. -/
def isIPLiteral (s : Bytes) : Bool :=
  let inner := s.tail.dropLast
  s == 0x5b :: (inner ++ [0x5d]) && inner.all (fun x => isNameByte x || x == 0x3a) &&
    (isIPv6 inner || isIPvFuture inner)

/-- `uri-host`. Every `IPv4address` is a `reg-name`. -/
def isUriHost (s : Bytes) : Bool := isRegName s || isIPLiteral s

/-- `authority-form`: a host, a colon and a port, which is what follows the last colon. -/
def isAuthorityForm (t : Bytes) : Bool :=
  let before := t.rdropWhile (· != 0x3a)
  before != [] && isUriHost before.dropLast && (t.rtakeWhile (· != 0x3a)).all isDigit

example : isUriHost (ascii "[::ffff:10.0.0.1]") ∧ isUriHost (ascii "[1:2:3:4:5:6:7::]") ∧
    isUriHost (ascii "a%2Fb") ∧ ¬ isUriHost (ascii "a/b") ∧ ¬ isUriHost (ascii "u@a") ∧
    ¬ isUriHost (ascii "[1:2:3:4:5:6:7:8::]") ∧ ¬ isUriHost (ascii "[1::2::3]") ∧
    ¬ isAuthorityForm (ascii "a:1:443") := by decide +kernel

theorem isAuthorityForm_append (host : Bytes) {port : Bytes} (h : port.all isDigit = true) :
    isAuthorityForm (host ++ 0x3a :: port) = isUriHost host := by
  have hcolon : ∀ x ∈ port.reverse, (x != 0x3a) = true := by
    intro x hx
    have hdigit := List.all_eq_true.1 h x (List.mem_reverse.1 hx)
    rw [bne_iff_ne]
    rintro rfl
    cases hdigit
  have hrev : (host ++ 0x3a :: port).reverse = port.reverse ++ 0x3a :: host.reverse := by simp
  have hdrop : (host ++ 0x3a :: port).rdropWhile (· != 0x3a) = host ++ [0x3a] := by
    rw [List.rdropWhile, hrev, List.dropWhile_append_of_pos hcolon,
      List.dropWhile_cons_of_neg (by simp)]
    simp
  have htake : (host ++ 0x3a :: port).rtakeWhile (· != 0x3a) = port := by
    rw [List.rtakeWhile, hrev, List.takeWhile_append_of_pos hcolon,
      List.takeWhile_cons_of_neg (by simp)]
    simp
  simp only [isAuthorityForm, hdrop, htake, h, List.dropLast_concat, Bool.and_true]
  simp

theorem isVisible_of_name {x : UInt8} (h : isNameByte x = true) : isVisible x = true := by
  revert x
  apply Url.forall_byte
  decide +kernel

theorem isNameByte_of_hex {x : UInt8} (h : Url.isHex x = true) : isNameByte x = true := by
  revert x
  apply Url.forall_byte
  decide +kernel

theorem visible_of_isRegName {s : Bytes} (h : isRegName s = true) : s.all isVisible = true := by
  fun_induction isRegName s with
  | case1 => rfl
  | case2 a b s ih =>
    simp only [Bool.and_eq_true] at h
    obtain ⟨⟨ha, hb⟩, hs⟩ := h
    have ha' := isVisible_of_name (isNameByte_of_hex ha)
    have hb' := isVisible_of_name (isNameByte_of_hex hb)
    simp only [List.all_cons, ha', hb', ih hs, Bool.and_true]
    decide
  | case3 x s _ ih =>
    rw [Bool.and_eq_true] at h
    simp only [List.all_cons, isVisible_of_name h.1, ih h.2, Bool.and_true]

/-- No host has a blank or a control character. -/
theorem visible_of_isUriHost {s : Bytes} (h : isUriHost s = true) : s.all isVisible = true := by
  rw [isUriHost, Bool.or_eq_true] at h
  rcases h with h | h
  · exact visible_of_isRegName h
  · simp only [isIPLiteral, Bool.and_eq_true, beq_iff_eq] at h
    obtain ⟨⟨hs, hinner⟩, -⟩ := h
    have hvisible : s.tail.dropLast.all isVisible = true := by
      rw [List.all_eq_true] at hinner ⊢
      intro x hx
      have hbyte := hinner x hx
      rw [Bool.or_eq_true, beq_iff_eq] at hbyte
      obtain hname | rfl := hbyte
      · exact isVisible_of_name hname
      · decide
    rw [hs, List.all_cons, List.all_append, hvisible]
    decide

/-! ## The head -/

structure Request where
  method : Bytes
  target : Bytes
  fields : List (Bytes × Bytes)
deriving DecidableEq

/-- The bytes before the first CR LF, and those after it. -/
def takeLine : Bytes → Option (Bytes × Bytes)
  | [] => none
  | x :: b =>
    if x = 0x0d ∧ b.head? = some 0x0a then some ([], b.tail)
    else (takeLine b).map fun p => (x :: p.1, p.2)

/-- The bytes before the first `d`, and those after it. -/
def splitByte (d : UInt8) (b : Bytes) : Option (Bytes × Bytes) :=
  if d ∈ b then some (b.takeWhile (· != d), (b.dropWhile (· != d)).tail) else none

def parseRequestLine (l : Bytes) : Option (Bytes × Bytes) := do
  let (method, rest) ← splitByte 0x20 l
  let (target, version) ← splitByte 0x20 rest
  if method = ascii "CONNECT" ∧ isAuthorityForm target ∧ version = ascii "HTTP/1.1" then
    some (method, target)
  else none

def parseField (l : Bytes) : Option (Bytes × Bytes) := do
  let (name, value) ← splitByte 0x3a l
  if name ≠ [] ∧ name.all isTokenByte ∧ value.all isFieldByte then
    some (name, (value.dropWhile isBlank).rdropWhile isBlank)
  else none

theorem takeLine_length {b l rest : Bytes} (h : takeLine b = some (l, rest)) :
    rest.length < b.length := by
  induction b generalizing l with
  | nil => cases h
  | cons x b ih =>
    rw [takeLine] at h
    split at h
    · cases h
      simp only [List.length_tail, List.length_cons]
      omega
    · obtain ⟨⟨l', rest'⟩, hrec, heq⟩ := Option.map_eq_some_iff.1 h
      cases heq
      have hlt : rest'.length < b.length := ih hrec
      simp only [List.length_cons]
      omega

/-- The fields up to the empty line, and the bytes after it. -/
def parseFields (b : Bytes) : Option (List (Bytes × Bytes) × Bytes) :=
  match _h : takeLine b with
  | none => none
  | some (l, rest) =>
    if l = [] then some ([], rest)
    else
      match parseField l with
      | none => none
      | some f => (parseFields rest).map fun p => (f :: p.1, p.2)
termination_by b.length
decreasing_by exact takeLine_length _h

/-- One request head, and what follows it. -/
def parseRequest (b : Bytes) : Option (Request × Bytes) := do
  let (l, b) ← takeLine b
  let (method, target) ← parseRequestLine l
  let (fields, b) ← parseFields b
  some (⟨method, target, fields⟩, b)

/-! ## Reading what was put together -/

theorem takeLine_append {l : Bytes} (rest : Bytes) (h : 0x0d ∉ l) :
    takeLine (l ++ 0x0d :: 0x0a :: rest) = some (l, rest) := by
  induction l with
  | nil => simp [takeLine]
  | cons x l ih =>
    have hx : x ≠ 0x0d := by
      rintro rfl
      simp at h
    have hl : 0x0d ∉ l := fun hmem => h (List.mem_cons_of_mem x hmem)
    rw [List.cons_append, takeLine, if_neg (fun hc => hx hc.1), ih hl]
    rfl

theorem splitByte_append {d : UInt8} {u : Bytes} (v : Bytes) (h : d ∉ u) :
    splitByte d (u ++ d :: v) = some (u, v) := by
  have hall : ∀ x ∈ u, (x != d) = true := by
    intro x hx
    simp only [bne_iff_ne, ne_eq]
    rintro rfl
    exact h hx
  simp [splitByte, List.takeWhile_append_of_pos hall, List.dropWhile_append_of_pos hall]

theorem not_mem_visible {t : Bytes} {d : UInt8} (h : t.all isVisible = true)
    (hd : isVisible d = false) : d ∉ t := by
  intro hmem
  rw [List.all_eq_true.1 h d hmem] at hd
  cases hd

theorem parseRequestLine_append {target : Bytes} (ht : target.all isVisible = true)
    (ht' : isAuthorityForm target = true) :
    parseRequestLine (ascii "CONNECT" ++ 0x20 :: (target ++ 0x20 :: ascii "HTTP/1.1")) =
      some (ascii "CONNECT", target) := by
  rw [parseRequestLine, splitByte_append _ (by decide +kernel)]
  change (splitByte 0x20 (target ++ 0x20 :: ascii "HTTP/1.1") >>= _) = _
  rw [splitByte_append _ (not_mem_visible ht (by decide))]
  exact if_pos ⟨rfl, ht', rfl⟩

theorem parseField_append {name value : Bytes} (hn : name ≠ []) (hn' : name.all isTokenByte = true)
    (hcolon : 0x3a ∉ name) (hv : value.all isVisible = true) :
    parseField (name ++ 0x3a :: 0x20 :: value) = some (name, value) := by
  have hblank : ∀ x ∈ value, isBlank x = false := by
    intro x hx
    have hbyte := List.all_eq_true.1 hv x hx
    have hno : ∀ y, isVisible y = true → isBlank y = false := by
      intro y hy
      cases hb : isBlank y with
      | false => rfl
      | true =>
        obtain rfl | rfl : y = 0x09 ∨ y = 0x20 := by simpa [isBlank] using hb
        all_goals exact absurd hy (by decide)
    exact hno x hbyte
  have hleft : (0x20 :: value).dropWhile isBlank = value := by
    rw [List.dropWhile_cons_of_pos (by decide)]
    cases value with
    | nil => rfl
    | cons x v => rw [List.dropWhile_cons_of_neg (by simp [hblank x (by simp)])]
  have hright : value.rdropWhile isBlank = value := by
    rw [List.rdropWhile_eq_self_iff]
    intro hne
    simp [hblank _ (List.getLast_mem hne)]
  have hfield : (0x20 :: value).all isFieldByte = true := by
    rw [List.all_cons, Bool.and_eq_true]
    refine ⟨by decide, ?_⟩
    rw [List.all_eq_true] at hv ⊢
    intro x hx
    simp [isFieldByte, hv x hx]
  rw [parseField, splitByte_append _ hcolon]
  change (if _ then some (name, _) else none) = _
  rw [if_pos ⟨hn, hn', hfield⟩, hleft, hright]

theorem parseFields_cons {l name value rest left : Bytes} {fs : List (Bytes × Bytes)}
    (hcr : 0x0d ∉ l) (hl : l ≠ []) (hf : parseField l = some (name, value))
    (hrest : parseFields rest = some (fs, left)) :
    parseFields (l ++ 0x0d :: 0x0a :: rest) = some ((name, value) :: fs, left) := by
  rw [parseFields, takeLine_append rest hcr]
  simp only [hl, if_false, hf, hrest, Option.map_some]

theorem parseFields_end (rest : Bytes) : parseFields (0x0d :: 0x0a :: rest) = some ([], rest) := by
  rw [parseFields, show takeLine (0x0d :: 0x0a :: rest) = some ([], rest) from
    takeLine_append (l := []) rest (by simp)]
  simp

theorem parseRequest_of_parts {b b' l method target left : Bytes} {fields : List (Bytes × Bytes)}
    (hl : takeLine b = some (l, b')) (hr : parseRequestLine l = some (method, target))
    (hf : parseFields b' = some (fields, left)) :
    parseRequest b = some (⟨method, target, fields⟩, left) := by
  simp [parseRequest, hl, hr, hf]

theorem target_of_parseRequest {b left : Bytes} {r : Request} (h : parseRequest b = some (r, left)) :
    isAuthorityForm r.target = true := by
  unfold parseRequest at h
  obtain ⟨⟨l, b'⟩, -, h⟩ := Option.bind_eq_some_iff.1 h
  obtain ⟨⟨method, target⟩, hline, h⟩ := Option.bind_eq_some_iff.1 h
  obtain ⟨⟨fields, b''⟩, -, h⟩ := Option.bind_eq_some_iff.1 h
  cases h
  unfold parseRequestLine at hline
  obtain ⟨⟨m, rest⟩, -, hline⟩ := Option.bind_eq_some_iff.1 hline
  obtain ⟨⟨t, version⟩, -, hline⟩ := Option.bind_eq_some_iff.1 hline
  simp only at hline
  split at hline
  · next hok =>
    cases hline
    exact hok.2.1
  · cases hline

end Dockerset.Http

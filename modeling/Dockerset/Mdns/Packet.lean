import Dockerset.Go.Fallible
import Dockerset.Go.Utf8

/-!
# Reading mDNS queries (`cmd/minimdnsd/main.go`)

`parseIntent` and what it calls. A name in a packet may end in a pointer to
another place of the packet, and the place is the sender's choice: `parseLabels`
counts the pointers it has followed and gives up after ten.

The loop over the labels is total because every label moves it forward, and the
recursion because every pointer uses up one of those that are left.
-/

namespace Dockerset.Mdns
open Go

structure DnsHeader where
  id : Nat
  flags : Nat
  qdCount : Nat
  anCount : Nat
  nsCount : Nat
  arCount : Nat
deriving DecidableEq

structure DnsQuestion where
  name : Bytes
  qtype : Nat
  qclass : Nat
deriving DecidableEq

structure QueryIntent where
  wantA : Bool
  wantAAAA : Bool
deriving DecidableEq

def maxNameLength : Nat := 255

/-- `readHeader(packet)`. -/
def readHeader (packet : Bytes) : Fallible DnsHeader :=
  if packet.length < 12 then fail "packet too short"
  else do
    let id ← uint16Of packet 0 2
    let flags ← uint16Of packet 2 4
    let qdCount ← uint16Of packet 4 6
    let anCount ← uint16Of packet 6 8
    let nsCount ← uint16Of packet 8 10
    let arCount ← uint16Of packet 10 12
    return ⟨id, flags, qdCount, anCount, nsCount, arCount⟩

/-- The 14 bits of a compression pointer. -/
def pointerTarget (l lo : UInt8) : Nat := (l &&& 0x3F).toNat <<< 8 ||| lo.toNat

/-- The loop of `parseLabels`; `jump` goes on at a pointer's target. -/
def labelLoop (packet : Bytes) (jump : Nat → Fallible (List Bytes × Nat)) (labels : List Bytes)
    (i : Nat) : Fallible (List Bytes × Nat) :=
  if _h : i ≥ packet.length then fail "truncated name"
  else do
    let l ← byteAt packet i
    if l &&& 0xC0 = 0x00 then
      if l = 0 then return (labels, i + 1)
      else if l > 63 then fail "invalid label length"
      else if i + 1 + l.toNat > packet.length then fail "label out of bounds"
      else
        let label ← slice packet (i + 1) (i + 1 + l.toNat)
        labelLoop packet jump (labels ++ [label]) (i + 1 + l.toNat)
    else if l &&& 0xC0 = 0xC0 then
      if i + 1 ≥ packet.length then fail "truncated compression pointer"
      else
        let lo ← byteAt packet (i + 1)
        let (ptrLabels, _) ← jump (pointerTarget l lo)
        return (labels ++ ptrLabels, i + 2)
    else fail "invalid label encoding"
termination_by packet.length - i

/-- `parseLabels` with `left` names to go, this one included. -/
def labelsWithin (packet : Bytes) : Nat → Nat → Fallible (List Bytes × Nat)
  | 0, _ => fail "too many compression pointers"
  | left + 1, start =>
    if start ≥ packet.length then fail "name offset out of range"
    else labelLoop packet (labelsWithin packet left) [] start

/-- `parseLabels(packet, start, depth)`. -/
def parseLabels (packet : Bytes) (start depth : Nat) : Fallible (List Bytes × Nat) :=
  labelsWithin packet (11 - depth) start

/-- `strings.Join(labels, ".")`. -/
def joinDots (labels : List Bytes) : Bytes := [0x2e].intercalate labels

section

variable (lower : Char → Char)

/-- `parseName(packet, &off)`: the name and the new offset. -/
def parseName (packet : Bytes) (off : Nat) : Fallible (Bytes × Nat) := do
  let (labels, next) ← parseLabels packet off 0
  let name := joinDots labels
  if name.length > maxNameLength then fail "dns name too long"
  else return (toLower lower name, next)

/-- The loop of `parseQuestions`, with so many questions to go. -/
def questionLoop (packet : Bytes) : Nat → Nat → List DnsQuestion → Fallible (List DnsQuestion)
  | 0, _, questions => return questions
  | count + 1, off, questions => do
    let (name, off) ← parseName lower packet off
    if off + 4 > packet.length then fail "truncated question"
    else
      let qtype ← uint16Of packet off (off + 2)
      let qclass ← uint16Of packet (off + 2) (off + 4)
      questionLoop packet count (off + 4) (questions ++ [⟨name, qtype, qclass⟩])

/-- `parseQuestions(packet, qdCount)`. -/
def parseQuestions (packet : Bytes) (qdCount : Nat) : Fallible (List DnsQuestion) :=
  questionLoop lower packet qdCount 12 []

/-- One question of the last loop in `parseIntent`. -/
def noteQuestion (hostnameFQDN : Bytes) (intent : QueryIntent) (q : DnsQuestion) : QueryIntent :=
  if q.name ≠ hostnameFQDN then intent
  else if q.qtype = 1 then { intent with wantA := true }
  else if q.qtype = 28 then { intent with wantAAAA := true }
  else if q.qtype = 255 then ⟨true, true⟩
  else intent

/-- `parseIntent(packet, hostnameFQDN)`. -/
def parseIntent (packet hostnameFQDN : Bytes) : Fallible (DnsHeader × QueryIntent) := do
  let hdr ← readHeader packet
  if hdr.flags &&& 0x8000 ≠ 0 then return (hdr, ⟨false, false⟩)
  else
    let questions ← parseQuestions lower packet hdr.qdCount
    return (hdr, questions.foldl (noteQuestion hostnameFQDN) ⟨false, false⟩)

end

/-! ## No access is out of range -/

section

variable {lower : Char → Char} {packet : Bytes}

theorem safe_readHeader : Safe (readHeader packet) fun _ => True := by
  unfold readHeader
  apply safe_ite
  · intro _
    exact safe_fail _
  · intro hlen
    have hread : ∀ i, i + 2 ≤ 12 → Returns (uint16Of packet i (i + 2)) := by
      intro i hi
      exact returns_uint16 (by omega)
    refine safe_read (hread 0 (by omega)) fun _ => ?_
    refine safe_read (hread 2 (by omega)) fun _ => ?_
    refine safe_read (hread 4 (by omega)) fun _ => ?_
    refine safe_read (hread 6 (by omega)) fun _ => ?_
    refine safe_read (hread 8 (by omega)) fun _ => ?_
    refine safe_read (hread 10 (by omega)) fun _ => ?_
    exact safe_pure trivial

theorem safe_labelLoop {jump : Nat → Fallible (List Bytes × Nat)}
    (hjump : ∀ target, Safe (jump target) fun _ => True) (labels : List Bytes) (i : Nat) :
    Safe (labelLoop packet jump labels i) fun r => i < r.2 ∧ r.2 ≤ packet.length := by
  induction labels, i using labelLoop.induct packet with
  | case1 labels i h =>
    rw [labelLoop, dif_pos h]
    exact safe_fail _
  | case2 labels i h ih =>
    rw [labelLoop, dif_neg h]
    refine safe_read (returns_byteAt (by omega)) fun l => ?_
    apply safe_ite
    · intro _
      apply safe_ite
      · intro _
        exact safe_pure ⟨by omega, by omega⟩
      intro _
      apply safe_ite
      · intro _
        exact safe_fail _
      intro _
      apply safe_ite
      · intro _
        exact safe_fail _
      intro hend
      refine safe_read (returns_slice (by omega) (by omega)) fun label => ?_
      refine (ih l hend label).mono fun r hr => ?_
      exact ⟨by omega, hr.2⟩
    · intro _
      apply safe_ite
      · intro _
        apply safe_ite
        · intro _
          exact safe_fail _
        intro hlo
        refine safe_read (returns_byteAt (by omega)) fun lo => ?_
        refine safe_bind (hjump _) fun r _ => ?_
        exact safe_pure ⟨by omega, by omega⟩
      · intro _
        exact safe_fail _

theorem safe_labelsWithin (left start : Nat) :
    Safe (labelsWithin packet left start) fun r => start < r.2 ∧ r.2 ≤ packet.length := by
  induction left generalizing start with
  | zero => exact safe_fail _
  | succ left ih =>
    unfold labelsWithin
    apply safe_ite
    · intro _
      exact safe_fail _
    · intro _
      apply safe_labelLoop
      intro target
      exact (ih target).mono fun _ _ => trivial

theorem safe_parseName (off : Nat) :
    Safe (parseName lower packet off) fun r => off < r.2 ∧ r.2 ≤ packet.length := by
  refine safe_bind (safe_labelsWithin 11 off) fun r hr => ?_
  apply safe_ite
  · intro _
    exact safe_fail _
  · intro _
    exact safe_pure hr

theorem safe_questionLoop (count off : Nat) (questions : List DnsQuestion) :
    Safe (questionLoop lower packet count off questions) fun _ => True := by
  induction count generalizing off questions with
  | zero => exact safe_pure trivial
  | succ count ih =>
    refine safe_bind (safe_parseName off) fun r _ => ?_
    apply safe_ite
    · intro _
      exact safe_fail _
    · intro hlen
      refine safe_read (returns_uint16 (by omega)) fun qtype => ?_
      refine safe_read (returns_uint16 (by omega)) fun qclass => ?_
      exact ih _ _

theorem safe_parseIntent (hostnameFQDN : Bytes) :
    Safe (parseIntent lower packet hostnameFQDN) fun _ => True := by
  refine safe_bind safe_readHeader fun hdr _ => ?_
  apply safe_ite
  · intro _
    exact safe_pure trivial
  · intro _
    refine safe_bind (safe_questionLoop _ _ _) fun questions _ => ?_
    exact safe_pure trivial

/-- **No packet makes the responder panic**, and a name that was read ends after
its start and in the packet. -/
theorem parseIntent_returns (lower : Char → Char) (packet hostnameFQDN : Bytes) :
    Returns (parseIntent lower packet hostnameFQDN).run ∧
    ∀ off name next, Yields (parseName lower packet off) (name, next) →
      off < next ∧ next ≤ packet.length := by
  refine ⟨(safe_parseIntent hostnameFQDN).returns, ?_⟩
  intro off name next h
  exact (safe_parseName off).value h

end

/-- A query with one question, the given bytes. -/
def queryOf (question : Bytes) : Bytes := [0, 0, 0, 0, 0, 1, 0, 0, 0, 0, 0, 0] ++ question

-- a pointer to itself, and a name that a pointer continues at its own second label
example : (parseIntent id (queryOf [0xC0, 12, 0, 1, 0, 1]) []).run =
      .ok (.error "too many compression pointers") ∧
    (parseName id (queryOf [1, 0x48, 1, 0x69, 0, 0xC0, 14, 0, 1, 0, 1]) 17).run =
      .ok (.ok ([0x69], 19)) := by
  decide +kernel

end Dockerset.Mdns

import Dockerset.Creality.Camera
import Dockerset.Data.Counter
import Dockerset.Go.BigEndian

/-!
# The times of the frames (`makeCameraFrameHandler`)

Every stream has a handler of its own. It keeps the timestamp of the first packet
and gives each frame the time since then, in microseconds; the page puts the
frames in the order of these times. A timestamp has 32 bits and counts 90000 ticks
a second, so that it comes round every 13 hours and 15 minutes. `times_iff` says
that the times are right, and in order, until then.
-/

namespace Dockerset.Creality
open Go Data Logic

/-! ## Key frames -/

/-- The length of the start code at `i`, where there is one. -/
def startCodeLen (b : Bytes) (i : Nat) : Except Panic Nat := do
  let x ← byteAt b (i + 2)
  if x = 1 then return 3
  else if i + 5 < b.length ∧ x = 0 then
    let y ← byteAt b (i + 3)
    return if y = 1 then 4 else 0
  else return 0

/-- One turn of the loop in `containsH264IDR`. -/
def idrAt (b : Bytes) (i : Nat) : Except Panic Bool := do
  let x ← byteAt b i
  if x ≠ 0 then return false
  else
    let y ← byteAt b (i + 1)
    if y ≠ 0 then return false
    else
      let offset ← startCodeLen b i
      if offset = 0 ∨ i + offset ≥ b.length then return false
      else
        let z ← byteAt b (i + offset)
        return z &&& 0x1F == 5

def idrFrom (b : Bytes) (i : Nat) : Except Panic Bool :=
  if i + 4 < b.length then do
    let found ← idrAt b i
    if found then return true else idrFrom b (i + 1)
  else return false
termination_by b.length - i

/-- `containsH264IDR(b)`. -/
def containsH264IDR (b : Bytes) : Except Panic Bool := idrFrom b 0

theorem returns_idrAt {b : Bytes} {i : Nat} (h : i + 4 < b.length) : Returns (idrAt b i) := by
  have hread : ∀ k, k ≤ 4 → Returns (byteAt b (i + k)) := by
    intro k hk
    exact returns_byteAt (by omega)
  apply (hread 0 (by omega)).bind
  intro x _
  apply Returns.ite
  · intro _
    exact .pure _
  intro _
  apply (hread 1 (by omega)).bind
  intro y _
  apply Returns.ite
  · intro _
    exact .pure _
  intro _
  have hcode : Returns (startCodeLen b i) := by
    apply (hread 2 (by omega)).bind
    intro c _
    apply Returns.ite
    · intro _
      exact .pure _
    intro _
    apply Returns.ite
    · intro _
      exact (hread 3 (by omega)).bind fun _ _ => .pure _
    · intro _
      exact .pure _
  apply hcode.bind
  intro offset _
  apply Returns.ite
  · intro _
    exact .pure _
  intro hoffset
  exact (returns_byteAt (by omega)).bind fun _ _ => .pure _

theorem returns_idrFrom (b : Bytes) (i : Nat) : Returns (idrFrom b i) := by
  induction i using idrFrom.induct b with
  | case1 i h ih =>
    rw [idrFrom, if_pos h]
    apply (returns_idrAt h).bind
    intro found _
    apply Returns.ite
    · intro _
      exact .pure _
    · intro _
      exact ih
  | case2 i h =>
    rw [idrFrom, if_neg h]
    exact .pure _

/-! ## The handler -/

structure RtpPacket where
  timestamp : UInt32
  payload : Bytes
deriving DecidableEq

/-- The variables that the handler keeps. -/
structure HandlerState where
  firstTS : UInt32
  haveFirst : Bool
deriving DecidableEq

/-- `uint64(uint32(packet.Timestamp-firstTS)) * 1_000_000 / 90_000`. -/
def timestampUS (timestamp firstTS : UInt32) : UInt64 :=
  (timestamp - firstTS).toUInt64 * 1000000 / 90000

section

-- `annexb.DecodeAVCCWithAUD` is a function of a library
variable (decodeAVCCWithAUD : Bytes → Bytes)

/-- One call of the handler, with the message that it broadcasts. -/
def cameraFrameHandler (s : HandlerState) (packet : RtpPacket) :
    Except Panic (HandlerState × Option Bytes) :=
  if packet.payload.length = 0 then return (s, none)
  else do
    let s := if !s.haveFirst then ⟨packet.timestamp, true⟩ else s
    let annexB := decodeAVCCWithAUD packet.payload
    let key ← containsH264IDR annexB
    let msg := putUint64 (timestampUS packet.timestamp s.firstTS) ++ [if key then 1 else 0] ++ annexB
    return (s, some msg)

/-- The messages of a handler that gets these packets. -/
def messagesFrom (s : HandlerState) : List RtpPacket → Except Panic (List Bytes)
  | [] => return []
  | packet :: packets => do
    let (s, msg) ← cameraFrameHandler decodeAVCCWithAUD s packet
    let msgs ← messagesFrom s packets
    return msg.toList ++ msgs

/-- `makeCameraFrameHandler`, called for the packets of one stream. -/
def messages (packets : List RtpPacket) : Except Panic (List Bytes) :=
  messagesFrom decodeAVCCWithAUD ⟨0, false⟩ packets

end

/-- The time in a message, as the page reads it. -/
def timeOf (msg : Bytes) : Nat := beNat (msg.take 8)

/-- Ticks in microseconds, rounded down. -/
def micros (ticks : Nat) : Nat := ticks * 1000000 / 90000

theorem strictMono_micros : StrictMono micros := by
  intro d e hlt
  unfold micros
  omega

section

variable {decode : Bytes → Bytes} {first : UInt32} {packet : RtpPacket}

theorem toNat_product (timestamp firstTS : UInt32) :
    ((timestamp - firstTS).toUInt64 * 1000000).toNat = (timestamp - firstTS).toNat * 1000000 := by
  have hlt := (timestamp - firstTS).toNat_lt
  rw [UInt64.toNat_mul, UInt32.toNat_toUInt64]
  exact Nat.mod_eq_of_lt (by simp only [UInt64.reduceToNat]; omega)

theorem toNat_timestampUS (timestamp firstTS : UInt32) :
    (timestampUS timestamp firstTS).toNat = micros (timestamp - firstTS).toNat := by
  rw [timestampUS, UInt64.toNat_div, toNat_product]
  rfl

/-- A packet that is not empty gives a message with the time since the first one. -/
theorem handler_nonEmpty {s : HandlerState} (hne : packet.payload ≠ [])
    (hs : (if !s.haveFirst then ⟨packet.timestamp, true⟩ else s) = (⟨first, true⟩ : HandlerState)) :
    ∃ msg, cameraFrameHandler decode s packet = .ok (⟨first, true⟩, some msg) ∧
      timeOf msg = micros (packet.timestamp - first).toNat := by
  obtain ⟨key, hkey⟩ : Returns (containsH264IDR (decode packet.payload)) := returns_idrFrom _ 0
  refine ⟨putUint64 (timestampUS packet.timestamp first) ++ [if key then 1 else 0] ++
    decode packet.payload, ?_, ?_⟩
  · have hlen : ¬ packet.payload.length = 0 := by
      rw [List.length_eq_zero_iff]
      exact hne
    unfold cameraFrameHandler
    rw [if_neg hlen]
    dsimp only
    rw [hs, hkey]
    rfl
  · have hlen := length_putUint64 (timestampUS packet.timestamp first)
    rw [timeOf, List.append_assoc, ← hlen, List.take_left, beNat_putUint64, toNat_timestampUS]

theorem messagesFrom_times {packets : List RtpPacket} (hne : ∀ p ∈ packets, p.payload ≠ [])
    {s : HandlerState}
    (hs : ∀ p ∈ packets.head?,
      (if !s.haveFirst then ⟨p.timestamp, true⟩ else s) = (⟨first, true⟩ : HandlerState)) :
    ∃ msgs, messagesFrom decode s packets = .ok msgs ∧
      msgs.map timeOf = packets.map fun p => micros (p.timestamp - first).toNat := by
  induction packets generalizing s with
  | nil => exact ⟨[], rfl, rfl⟩
  | cons p packets ih =>
    obtain ⟨hp, hpackets⟩ := List.forall_mem_cons.1 hne
    obtain ⟨msg, hmsg, htime⟩ : ∃ msg, cameraFrameHandler decode s p = .ok (⟨first, true⟩, some msg) ∧
        timeOf msg = micros (p.timestamp - first).toNat := handler_nonEmpty hp (hs p rfl)
    -- from the first packet on, the handler keeps its state
    obtain ⟨msgs, hmsgs, htimes⟩ : ∃ msgs, messagesFrom decode ⟨first, true⟩ packets = .ok msgs ∧
        msgs.map timeOf = packets.map fun p => micros (p.timestamp - first).toNat :=
      ih hpackets fun _ _ => rfl
    refine ⟨msg :: msgs, ?_, ?_⟩
    · rw [messagesFrom, hmsg, ok_bind]
      dsimp only
      rw [hmsgs]
      rfl
    · rw [List.map_cons, List.map_cons, htime, htimes]

end

/-! ## Streams -/

/-- The packets of a stream. None is empty, and each timestamp is ahead of the one
before by less than half a round. -/
structure Stream where
  packets : List RtpPacket
  nonEmpty : ∀ p ∈ packets, p.payload ≠ []
  forward : packets.IsChain fun p q => (q.timestamp - p.timestamp).toNat < 2 ^ 31

namespace Stream

variable (s : Stream)

/-- The timestamp of the first packet. -/
def first : UInt32 := (s.packets.head?.map RtpPacket.timestamp).getD 0

/-- The true ticks since the first packet, for each packet: the ways from packet to
packet, none as long as half a round, added up. -/
def elapsed : List Nat :=
  unwrap 0 s.first.toBitVec (s.packets.map fun p => p.timestamp.toBitVec)

/-- The stream ends in the round of the timestamps in which it began. -/
def InRound : Prop := ∀ e ∈ s.elapsed, e < 2 ^ 32

/-- The times in the messages are in order. -/
def Ordered (decode : Bytes → Bytes) : Prop :=
  ∃ msgs, messages decode s.packets = .ok msgs ∧ (msgs.map timeOf).Pairwise (· ≤ ·)

/-- Each is the true time since the first packet, rounded down. -/
def Exact (decode : Bytes → Bytes) : Prop :=
  ∃ msgs, messages decode s.packets = .ok msgs ∧
    msgs.map timeOf = s.elapsed.map micros

/-- No product is too large for 64 bits. -/
def NoOverflow : Prop :=
  ∀ p ∈ s.packets,
    ((p.timestamp - s.first).toUInt64 * 1000000).toNat = (p.timestamp - s.first).toNat * 1000000

theorem messages_times (decode : Bytes → Bytes) :
    ∃ msgs, messages decode s.packets = .ok msgs ∧
      msgs.map timeOf = s.packets.map fun p => micros (p.timestamp - s.first).toNat := by
  apply messagesFrom_times s.nonEmpty
  intro p hp
  rw [first, Option.mem_def.1 hp]
  rfl

theorem map_since :
    s.packets.map (fun p => (p.timestamp - s.first).toNat) = s.elapsed.map (· % 2 ^ 32) := by
  have horigin : ahead s.first.toBitVec s.first.toBitVec = 0 % 2 ^ 32 := ahead_self _
  have hmap := map_ahead horigin (s.packets.map fun p => p.timestamp.toBitVec)
  rw [List.map_map] at hmap
  exact hmap

/-- The times are the true ticks without the full rounds, in microseconds. -/
theorem messages_elapsed (decode : Bytes → Bytes) :
    ∃ msgs, messages decode s.packets = .ok msgs ∧
      msgs.map timeOf = s.elapsed.map fun e => micros (e % 2 ^ 32) := by
  obtain ⟨msgs, hmsgs, htimes⟩ := s.messages_times decode
  refine ⟨msgs, hmsgs, ?_⟩
  have hmap := congrArg (List.map micros) s.map_since
  rw [List.map_map, List.map_map] at hmap
  exact htimes.trans hmap

theorem pairwise_iff :
    (s.elapsed.map fun e => micros (e % 2 ^ 32)).Pairwise (· ≤ ·) ↔ s.InRound := by
  have hchain := isChain_mod_unwrap (Nat.two_pow_pos 32) s.first.toBitVec
    (s.packets.map fun p => p.timestamp.toBitVec)
  rw [List.isChain_cons] at hchain
  unfold InRound elapsed
  rw [← hchain, ← List.isChain_iff_pairwise, List.isChain_map]
  simp only [strictMono_micros.le_iff_le]
  constructor
  · intro h
    refine ⟨?_, h⟩
    intro e _
    rw [Nat.zero_mod]
    exact Nat.zero_le _
  · intro h
    exact h.2

theorem map_micros_iff :
    (s.elapsed.map fun e => micros (e % 2 ^ 32)) = s.elapsed.map micros ↔ s.InRound := by
  rw [List.map_inj_left]
  apply forall₂_congr
  intro e _
  rw [strictMono_micros.injective.eq_iff]
  exact Nat.mod_eq_iff_lt (by decide)

/-- What is said of the times in the messages is said of the ticks. -/
theorem exists_messages_iff (decode : Bytes → Bytes) (P : List Nat → Prop) :
    (∃ msgs, messages decode s.packets = .ok msgs ∧ P (msgs.map timeOf)) ↔
      P (s.elapsed.map fun e => micros (e % 2 ^ 32)) := by
  obtain ⟨msgs, hmsgs, htimes⟩ := s.messages_elapsed decode
  rw [← htimes]
  constructor
  · intro h
    obtain ⟨msgs', hmsgs', hP⟩ := h
    rw [hmsgs] at hmsgs'
    cases hmsgs'
    exact hP
  · intro h
    exact ⟨msgs, hmsgs, h⟩

theorem ordered_iff (decode : Bytes → Bytes) : s.Ordered decode ↔ s.InRound :=
  (s.exists_messages_iff decode (List.Pairwise (· ≤ ·))).trans s.pairwise_iff

theorem exact_iff (decode : Bytes → Bytes) : s.Exact decode ↔ s.InRound :=
  (s.exists_messages_iff decode (· = s.elapsed.map micros)).trans s.map_micros_iff

end Stream

/-- **When the times of the frames are right**: exactly as long as the timestamps have
not come round to that of the first packet. At the packet at which they do, the
times run backwards. -/
theorem times_iff (decode : Bytes → Bytes) (s : Stream) :
    (s.Ordered decode ∧ s.Exact decode ∧ s.NoOverflow ↔ s.InRound) ∧
    (s.Ordered decode ↔ s.InRound) := by
  refine ⟨?_, s.ordered_iff decode⟩
  rw [s.ordered_iff decode, s.exact_iff decode]
  constructor
  · intro h
    exact h.1
  · intro h
    refine ⟨h, h, ?_⟩
    intro p _
    exact toNat_product p.timestamp s.first

/-- Four packets, the last one seven ticks after the one before it. -/
def wrapped : Stream where
  packets := [⟨0, [0]⟩, ⟨0x7fffffff, [0]⟩, ⟨0xfffffffe, [0]⟩, ⟨5, [0]⟩]
  nonEmpty := by decide
  forward := by decide

/-- The last one gets a time in the first second. -/
theorem times_backwards : ∃ msgs, messages id wrapped.packets = .ok msgs ∧
    msgs.map timeOf = [0, 23860929411, 47721858822, 55] ∧
    wrapped.elapsed.map micros = [0, 23860929411, 47721858822, 47721858900] ∧
    ¬ wrapped.Ordered id := by
  obtain ⟨msgs, hmsgs, htimes⟩ := wrapped.messages_times id
  have hvalues : (wrapped.packets.map fun p => micros (p.timestamp - wrapped.first).toNat) =
      [0, 23860929411, 47721858822, 55] := by decide +kernel
  refine ⟨msgs, hmsgs, htimes.trans hvalues, by decide +kernel, ?_⟩
  intro h
  obtain ⟨msgs', hmsgs', hordered⟩ := h
  rw [hmsgs] at hmsgs'
  cases hmsgs'
  rw [htimes, hvalues] at hordered
  exact absurd hordered (by decide)

end Dockerset.Creality

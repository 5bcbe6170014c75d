import Dockerset.Go.BigEndian
import Dockerset.Go.IP
import Dockerset.Mdns.Questions

/-!
# Responses, written and read back (`buildResponse`)

The number of the records stands in the header, sixteen bits wide, before the
first record is written; that it is the true one follows from the limit on the
size of the packet. `readResponse` is the reader that a response is meant for: it
follows the format, with `parseName` for the names. `buildResponse_read` says
that it reads what was to be sent and comes out at the end of the packet.
-/

namespace Dockerset.Mdns
open Go

def maxPacketSize : Nat := 9036

inductive BuildError where
  | encodeName (err : EncodeError)
  | tooLarge
deriving DecidableEq

section

variable (encName : Bytes) (rrType : UInt16)

/-- One turn of the loop of `buildResponse` over the addresses. -/
def collectAnswer (answers : List IP) (ip : IP) : List IP :=
  let answers := if rrType = 1 ∧ ip.to4.isSome then answers ++ [ip.to4.getD []] else answers
  if rrType = 28 ∧ ip.to4.isNone ∧ ip.to16.isSome then answers ++ [ip.to16.getD []]
  else answers

def collectAnswers (addrs : List IP) : List IP := addrs.foldl (collectAnswer rrType) []

/-- The first twelve bytes: response, authoritative, no question. -/
def responseHeader (id : UInt16) (answers : Nat) : Bytes :=
  putUint16 id ++ putUint16 0x8400 ++ putUint16 0 ++ putUint16 (UInt16.ofNat answers) ++
    putUint16 0 ++ putUint16 0

/-- What one turn of the loop over the answers appends to. -/
def appendRecord (packet : Bytes) (ip : IP) : Bytes :=
  let packet := packet ++ encName
  let packet := packet ++ [(rrType >>> 8).toUInt8, rrType.toUInt8]
  -- cache flush + IN class, then the TTL
  let packet := packet ++ [0x80, 0x01]
  let packet := packet ++ [0x00, 0x00, 0x00, 0xF0]
  if rrType = 1 then packet ++ [0x00, 0x04] ++ ip.to4.getD []
  else packet ++ [0x00, 0x10] ++ ip.to16.getD []

/-- The loop over the answers. -/
def recordLoop : Bytes → List IP → Except BuildError Bytes
  | packet, [] => .ok packet
  | packet, ip :: answers =>
    if (appendRecord encName rrType packet ip).length > maxPacketSize then .error .tooLarge
    else recordLoop (appendRecord encName rrType packet ip) answers

end

/-- `buildResponse(id, name, addrs, rrType)`; a nil packet is empty. -/
def buildResponse (id : UInt16) (name : Bytes) (addrs : List IP) (rrType : UInt16) :
    Except BuildError Bytes :=
  if addrs.length = 0 then .ok []
  else
    match encodeName name with
    | .error err => .error (.encodeName err)
    | .ok encName =>
      let answers := collectAnswers rrType addrs
      if answers.length = 0 then .ok []
      else recordLoop encName rrType (responseHeader id answers.length) answers

/-! ## Reading a response -/

structure Record where
  name : Bytes
  rtype : Nat
  rclass : Nat
  ttl : Nat
  data : Bytes
deriving DecidableEq

section

variable (lower : Char → Char) (packet : Bytes)

/-- A record: its name, type, class, TTL and the data with their length. -/
def readRecord (off : Nat) : Fallible (Record × Nat) := do
  let (name, off) ← parseName lower packet off
  let rtype ← uint16Of packet off (off + 2)
  let rclass ← uint16Of packet (off + 2) (off + 4)
  let ttl ← slice packet (off + 4) (off + 8)
  let length ← uint16Of packet (off + 8) (off + 10)
  let data ← slice packet (off + 10) (off + 10 + length)
  return (⟨name, rtype, rclass, beNat ttl, data⟩, off + 10 + length)

/-- So many records, and where the last one ends. -/
def readRecords : Nat → Nat → Fallible (List Record × Nat)
  | 0, off => return ([], off)
  | count + 1, off => do
    let (record, off) ← readRecord lower packet off
    let (records, off) ← readRecords count off
    return (record :: records, off)

/-- The header, the records that it announces, and where they end. -/
def readResponse : Fallible (DnsHeader × List Record × Nat) := do
  let hdr ← readHeader packet
  let (records, off) ← readRecords lower packet hdr.anCount 12
  return (hdr, records, off)

end

/-! ## The answers -/

/-- The address in the family of a record type: IPv4 for type A, else IPv6. -/
def addressFor (rrType : UInt16) (ip : IP) : Option Bytes :=
  if rrType = 1 then ip.to4 else if ip.to4.isNone then ip.to16 else none

def addressLength (rrType : UInt16) : Nat := if rrType = 1 then 4 else 16

section

variable {rrType : UInt16} {ip : IP} {a encName packet : Bytes}

theorem length_addressFor (h : addressFor rrType ip = some a) : a.length = addressLength rrType := by
  unfold addressFor at h
  unfold addressLength
  split at h
  · next h1 =>
    rw [if_pos h1]
    exact IP.length_to4 h
  · next h1 =>
    rw [if_neg h1]
    split at h
    · exact IP.length_to16 h
    · cases h

theorem length_of_mem_filterMap (addrs : List IP) :
    ∀ a ∈ addrs.filterMap (addressFor rrType), a.length = addressLength rrType := by
  intro a ha
  obtain ⟨ip, -, hip⟩ := List.mem_filterMap.1 ha
  exact length_addressFor hip

theorem collectAnswer_eq (hrr : rrType = 1 ∨ rrType = 28) (answers : List IP) (ip : IP) :
    collectAnswer rrType answers ip = answers ++ (addressFor rrType ip).toList := by
  unfold collectAnswer addressFor
  rcases hrr with rfl | rfl
  · cases h4 : ip.to4 <;> simp
  · cases h4 : ip.to4 <;> cases h16 : ip.to16 <;> simp

theorem collectAnswers_eq (hrr : rrType = 1 ∨ rrType = 28) (addrs : List IP) :
    collectAnswers rrType addrs = addrs.filterMap (addressFor rrType) := by
  have hfold : ∀ answers : List IP, addrs.foldl (collectAnswer rrType) answers =
      answers ++ addrs.filterMap (addressFor rrType) := by
    induction addrs with
    | nil => simp
    | cons ip addrs ih =>
      intro answers
      rw [List.foldl_cons, collectAnswer_eq hrr, ih, List.filterMap_cons, List.append_assoc]
      cases addressFor rrType ip <;> rfl
  exact hfold []

/-! ## The records -/

/-- The bytes of a record: behind the name ten fixed ones, then the address. -/
def recordBytes (encName : Bytes) (rrType : UInt16) (a : Bytes) : Bytes :=
  encName ++ (putUint16 rrType ++ (putUint16 0x8001 ++ ([0x00, 0x00, 0x00, 0xF0] ++
    (putUint16 (UInt16.ofNat (addressLength rrType)) ++ a))))

theorem appendRecord_eq (encName packet : Bytes) (ha : a.length = addressLength rrType) :
    appendRecord encName rrType packet a = packet ++ recordBytes encName rrType a := by
  have hclass : putUint16 0x8001 = [0x80, 0x01] := by decide
  have h4 : putUint16 (UInt16.ofNat 4) = [0x00, 0x04] := by decide
  have h16 : putUint16 (UInt16.ofNat 16) = [0x00, 0x10] := by decide
  unfold appendRecord recordBytes addressLength
  unfold addressLength at ha
  rw [hclass]
  by_cases h1 : rrType = 1
  · rw [if_pos h1] at ha ⊢
    rw [if_pos h1, h4, IP.to4_of_length ha]
    simp [putUint16]
  · rw [if_neg h1] at ha ⊢
    rw [if_neg h1, h16, IP.to16_of_length ha]
    simp [putUint16]

theorem recordLoop_ok {answers : List IP} {out : Bytes}
    (hlen : ∀ a ∈ answers, a.length = addressLength rrType)
    (h : recordLoop encName rrType packet answers = .ok out) :
    out = packet ++ answers.flatMap (recordBytes encName rrType) ∧
      (answers ≠ [] → out.length ≤ maxPacketSize) := by
  induction answers generalizing packet with
  | nil =>
    cases h
    exact ⟨(List.append_nil _).symm, fun hne => absurd rfl hne⟩
  | cons a answers ih =>
    obtain ⟨ha, hanswers⟩ := List.forall_mem_cons.1 hlen
    unfold recordLoop at h
    split at h
    · cases h
    · next hsize =>
      obtain ⟨rfl, hout⟩ := ih hanswers h
      rw [appendRecord_eq encName packet ha] at hsize hout ⊢
      constructor
      · rw [List.flatMap_cons, List.append_assoc]
      · intro _
        by_cases hne : answers = []
        · rw [hne, List.flatMap_nil, List.append_nil]
          omega
        · exact hout hne

theorem buildResponse_ok {id : UInt16} {name : Bytes} {addrs : List IP} {out : Bytes}
    (hrr : rrType = 1 ∨ rrType = 28) (h : buildResponse id name addrs rrType = .ok out)
    (hne : out ≠ []) :
    ∃ encName answers, encodeName name = .ok encName ∧
      answers = addrs.filterMap (addressFor rrType) ∧
      out = responseHeader id answers.length ++ answers.flatMap (recordBytes encName rrType) ∧
      out.length ≤ maxPacketSize := by
  unfold buildResponse at h
  split at h
  · cases h
    exact absurd rfl hne
  split at h
  · cases h
  · next encName hname =>
    dsimp only at h
    rw [collectAnswers_eq hrr] at h
    split at h
    · cases h
      exact absurd rfl hne
    · next hsome =>
      obtain ⟨hout, hmax⟩ := recordLoop_ok (length_of_mem_filterMap addrs) h
      refine ⟨encName, _, hname, rfl, hout, hmax ?_⟩
      intro hnil
      exact hsome (by rw [hnil]; rfl)

theorem length_le_records (encName : Bytes) (rrType : UInt16) (answers : List Bytes) :
    answers.length ≤ (answers.flatMap (recordBytes encName rrType)).length := by
  induction answers with
  | nil => exact Nat.le_refl 0
  | cons a answers ih =>
    rw [List.flatMap_cons, List.length_append, List.length_cons]
    have hone : 1 ≤ (recordBytes encName rrType a).length := by
      simp only [recordBytes, List.length_append, length_putUint16]
      omega
    omega

end

/-! ## Reading what was written -/

section

variable {lower : Char → Char} {packet name encName a : Bytes} {rrType : UInt16} {off : Nat}

/-- The record that was to be sent. -/
def recordFor (lower : Char → Char) (name : Bytes) (rrType : UInt16) (a : Bytes) : Record :=
  ⟨toLower lower name, rrType.toNat, 0x8001, 240, a⟩

theorem yields_readRecord (hname : encodeName name = .ok encName)
    (ha : a.length = addressLength rrType) (h : Window packet off (recordBytes encName rrType a)) :
    Yields (readRecord lower packet off)
      (recordFor lower name rrType a, off + (recordBytes encName rrType a).length) := by
  have hn : Yields (parseName lower packet off) (toLower lower name, off + encName.length) :=
    yields_parseName_encoded hname h.left
  have hsize : (UInt16.ofNat (addressLength rrType)).toNat = a.length := by
    rw [UInt16.toNat_ofNat', ha]
    unfold addressLength
    split <;> rfl
  have hend : off + (recordBytes encName rrType a).length = off + encName.length + 10 + a.length := by
    simp only [recordBytes, List.length_append, length_putUint16, List.length_cons, List.length_nil]
    omega
  rw [hend]
  have htype := h.right
  generalize off + encName.length = next at hn htype
  -- each field stands behind the one before it
  have hclass := htype.right
  have httl := hclass.right
  have hlength := httl.right
  have hdata := hlength.right
  simp only [length_putUint16, List.length_cons, List.length_nil, Nat.add_assoc,
    Nat.reduceAdd] at hclass httl hlength hdata
  refine yields_bind.2 ⟨_, hn, yields_bind.2 ⟨_, yields_lift.2 htype.uint16, ?_⟩⟩
  refine yields_bind.2 ⟨_, yields_lift.2 hclass.uint16, ?_⟩
  refine yields_bind.2 ⟨_, yields_lift.2 httl.left.slice, ?_⟩
  refine yields_bind.2 ⟨_, yields_lift.2 hlength.uint16, ?_⟩
  rw [hsize]
  exact yields_bind.2 ⟨_, yields_lift.2 hdata.slice, yields_pure.2 rfl⟩

theorem yields_readRecords (hname : encodeName name = .ok encName) {answers : List Bytes}
    (hlen : ∀ a ∈ answers, a.length = addressLength rrType)
    (h : Window packet off (answers.flatMap (recordBytes encName rrType))) :
    Yields (readRecords lower packet answers.length off)
      (answers.map (recordFor lower name rrType),
        off + (answers.flatMap (recordBytes encName rrType)).length) := by
  induction answers generalizing off with
  | nil => exact yields_pure.2 rfl
  | cons a answers ih =>
    obtain ⟨ha, hanswers⟩ := List.forall_mem_cons.1 hlen
    rw [List.flatMap_cons] at h
    rw [List.flatMap_cons, List.length_append, ← Nat.add_assoc]
    refine yields_bind.2 ⟨_, yields_readRecord hname ha h.left, ?_⟩
    exact yields_bind.2 ⟨_, ih hanswers h.right, yields_pure.2 rfl⟩

theorem yields_readHeader_response (id : UInt16) {answers : Nat} (hcount : answers < 65536)
    (rest : Bytes) :
    Yields (readHeader (responseHeader id answers ++ rest))
      ⟨id.toNat, 0x8400, 0, answers, 0, 0⟩ := by
  have htrue : (UInt16.ofNat answers).toNat = answers := by
    rw [UInt16.toNat_ofNat', Nat.mod_eq_of_lt hcount]
  have hlen : ¬ (responseHeader id answers ++ rest).length < 12 := by
    simp only [responseHeader, List.length_append, length_putUint16]
    omega
  have hat : Window (responseHeader id answers ++ rest) 0 (responseHeader id answers) :=
    ⟨[], rest, rfl, rfl⟩
  unfold responseHeader at hat
  have har := hat.right
  have hns := hat.left.right
  have han := hat.left.left.right
  have hqd := hat.left.left.left.right
  have hflags := hat.left.left.left.left.right
  have hid := hat.left.left.left.left.left
  simp only [List.length_append, length_putUint16, Nat.reduceAdd] at har hns han hqd hflags
  unfold readHeader
  rw [if_neg hlen]
  refine yields_bind.2 ⟨_, yields_lift.2 (Window.uint16 (w := []) hid), ?_⟩
  refine yields_bind.2 ⟨_, yields_lift.2 (Window.uint16 (w := []) hflags), ?_⟩
  refine yields_bind.2 ⟨_, yields_lift.2 (Window.uint16 (w := []) hqd), ?_⟩
  refine yields_bind.2 ⟨_, yields_lift.2 (Window.uint16 (w := []) han), ?_⟩
  refine yields_bind.2 ⟨_, yields_lift.2 (Window.uint16 (w := []) hns), ?_⟩
  refine yields_bind.2 ⟨_, yields_lift.2 (Window.uint16 (w := []) har), ?_⟩
  rw [htrue]
  exact yields_pure.2 rfl

theorem yields_parseIntent_response {hdr : DnsHeader} (h : Yields (readHeader packet) hdr)
    (hflags : hdr.flags = 0x8400) (hostnameFQDN : Bytes) :
    Yields (parseIntent lower packet hostnameFQDN) (hdr, ⟨false, false⟩) := by
  refine yields_bind.2 ⟨hdr, h, yields_ite.2 (.inl ⟨?_, yields_pure.2 rfl⟩)⟩
  rw [hflags]
  decide

end

/-- **Responses decode to what was to be sent**: one record for each address of the
family, in order, and nothing behind the last one. The count in the header is the
true one, and the responder finds no question in the packet. -/
theorem buildResponse_read (lower : Char → Char) (id : UInt16) (name : Bytes) (addrs : List IP)
    (rrType : UInt16) (packet : Bytes) (hrr : rrType = 1 ∨ rrType = 28)
    (hbuild : buildResponse id name addrs rrType = .ok packet) (hne : packet ≠ []) :
    ∃ hdr answers, hdr = (⟨id.toNat, 0x8400, 0, answers.length, 0, 0⟩ : DnsHeader) ∧
      answers = addrs.filterMap (addressFor rrType) ∧ answers.length < 65536 ∧
      (∀ a ∈ answers, a.length = addressLength rrType) ∧
      Yields (readResponse lower packet)
        (hdr, answers.map (recordFor lower name rrType), packet.length) ∧
      packet.length ≤ 9036 ∧
      ∀ hostnameFQDN,
        Yields (parseIntent lower packet hostnameFQDN) (hdr, ⟨false, false⟩) := by
  obtain ⟨encName, answers, hname, hanswers, hpacket, hmax⟩ := buildResponse_ok hrr hbuild hne
  have hlen : ∀ a ∈ answers, a.length = addressLength rrType := by
    rw [hanswers]
    exact length_of_mem_filterMap addrs
  -- the limit on the bytes bounds the number of the records
  have hcount : answers.length < 65536 := by
    have hle := length_le_records encName rrType answers
    rw [hpacket, List.length_append, maxPacketSize] at hmax
    omega
  have hhdr : Yields (readHeader packet) ⟨id.toNat, 0x8400, 0, answers.length, 0, 0⟩ := by
    rw [hpacket]
    exact yields_readHeader_response id hcount _
  have hat : Window packet 12 (answers.flatMap (recordBytes encName rrType)) :=
    ⟨responseHeader id answers.length, [], by rw [hpacket, List.append_nil], rfl⟩
  have hrecords : Yields (readRecords lower packet answers.length 12)
      (answers.map (recordFor lower name rrType), packet.length) := by
    have hend : packet.length = 12 + (answers.flatMap (recordBytes encName rrType)).length := by
      rw [hpacket, List.length_append]
      rfl
    rw [hend]
    exact yields_readRecords hname hlen hat
  refine ⟨_, answers, rfl, hanswers, hcount, hlen, ?_, hmax, ?_⟩
  · exact yields_bind.2 ⟨_, hhdr, yields_bind.2 ⟨_, hrecords, yields_pure.2 rfl⟩⟩
  · intro hostnameFQDN
    exact yields_parseIntent_response hhdr rfl hostnameFQDN

/-- An IPv4 address in each of its forms, and an IPv6 address. -/
def nasAddrs : List IP :=
  [[10, 0, 0, 1], v4InV6Prefix ++ [10, 0, 0, 2], List.replicate 15 0 ++ [1]]

/-- The response with the first two. -/
def nasResponse : Bytes :=
  responseHeader 7 2 ++ [[10, 0, 0, 1], [10, 0, 0, 2]].flatMap
    (recordBytes (3 :: ascii "Nas" ++ 5 :: ascii "local" ++ [0]) 1)

theorem buildResponse_read_nas :
    buildResponse 7 (ascii "Nas.local") nasAddrs 1 = .ok nasResponse ∧
    Yields (readResponse id nasResponse) (⟨7, 0x8400, 0, 2, 0, 0⟩,
      [⟨ascii "nas.local", 1, 0x8001, 240, [10, 0, 0, 1]⟩,
        ⟨ascii "nas.local", 1, 0x8001, 240, [10, 0, 0, 2]⟩], 62) := by
  have hbuild : buildResponse 7 (ascii "Nas.local") nasAddrs 1 = .ok nasResponse := by
    decide +kernel
  obtain ⟨hdr, answers, rfl, hanswers, -, -, hread, -⟩ :=
    buildResponse_read id 7 (ascii "Nas.local") nasAddrs 1 nasResponse (.inl rfl) hbuild
      (by decide +kernel)
  have haddrs : nasAddrs.filterMap (addressFor 1) = [[10, 0, 0, 1], [10, 0, 0, 2]] := by
    decide +kernel
  have hlower : toLower id (ascii "Nas.local") = ascii "nas.local" := by decide +kernel
  have hlen : nasResponse.length = 62 := by decide +kernel
  rw [hanswers, haddrs, hlen] at hread
  simp only [List.map_cons, List.map_nil, recordFor, hlower] at hread
  exact ⟨hbuild, hread⟩

end Dockerset.Mdns

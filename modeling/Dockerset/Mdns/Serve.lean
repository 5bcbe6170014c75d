import Dockerset.Go.IPNet
import Dockerset.Logic.EState
import Dockerset.Mdns.Response

/-!
# Serving queries (`serveUDP`)

One turn of the loop, from the datagram that was read to the datagrams that are sent.
The addresses of the interface are asked for twice, and may have changed in between.
`serve_exact` says when there is an answer and what it is: a response that reads as the
usable addresses of the interface, to the source and to the group.
-/

namespace Dockerset.Mdns
open Go

/-! ## The addresses of an interface -/

/-- A value of `iface.Addrs()`, by its dynamic type. -/
inductive Addr where
  | ipNet (net : IPNet)
  | ipAddr (ip : IP)
  | other
deriving DecidableEq

/-- The address in it; nil is empty. -/
def Addr.ip : Addr → IP
  | .ipNet net => net.ip
  | .ipAddr ip => ip
  | .other => []

/-- `isUsableIPv6(ip)`. -/
def isUsableIPv6 (ip : IP) : Bool :=
  !(ip.to16.isNone || ip.to4.isSome) && (!ip.isLoopback && !ip.isLinkLocalUnicast)

/-- The address that the loop of `ifaceUsableIPs` appends for an entry. -/
def usableIP (wantV6 : Bool) (addr : Addr) : Option IP :=
  let ip := addr.ip
  if ip = [] ∨ ip.isUnspecified ∨ ip.isMulticast then none
  else if wantV6 then
    if ip.to4.isSome || !isUsableIPv6 ip then none else some ip
  else
    match ip.to4 with
    | none => none
    | some v4 => if v4.headD 0 = 127 then none else some v4

/-- The loop of `ifaceUsableIPs`. -/
def usableLoop (wantV6 : Bool) (out : List IP) : List Addr → List IP
  | [] => out
  | addr :: addrs =>
    match usableIP wantV6 addr with
    | none => usableLoop wantV6 out addrs
    | some ip => if (out ++ [ip]).length ≥ 3 then out ++ [ip] else usableLoop wantV6 (out ++ [ip]) addrs

/-- `ifaceUsableIPs(iface, wantV6)`, with what `iface.Addrs()` returns. -/
def ifaceUsableIPs (addrs : Option (List Addr)) (wantV6 : Bool) : List IP :=
  match addrs with
  | none => []
  | some addrs => usableLoop wantV6 [] addrs

/-- The source is in the network of an entry, and of its family. -/
def sourceInAddr (srcIP : IP) (ipv6 : Bool) (addr : Addr) : Bool :=
  match addr with
  | .ipNet net =>
    if ipv6 then srcIP.to4.isNone && (net.ip.to4.isNone && net.ip.to16.isSome && net.contains srcIP)
    else srcIP.to4.isSome && (net.ip.to4.isSome && net.contains (srcIP.to4.getD []))
  | _ => false

/-- `sourceIPMatchesInterface(iface, srcIP, ipv6)`. -/
def sourceIPMatchesInterface (addrs : Option (List Addr)) (srcIP : IP) (ipv6 : Bool) : Bool :=
  if srcIP = [] then false
  else
    match addrs with
    | none => false
    | some addrs => addrs.any (sourceInAddr srcIP ipv6)

/-! ## One datagram -/

structure UDPAddr where
  ip : IP
  port : Nat
deriving DecidableEq

structure Datagram where
  src : UDPAddr
  payload : Bytes
deriving DecidableEq

/-- What `serveUDP` is started with. -/
structure Listener where
  group : UDPAddr
  hostname : Bytes
  ipv6 : Bool
deriving DecidableEq

/-- What the two calls of `iface.Addrs()` return. -/
structure Readings where
  atSource : Option (List Addr)
  atAnswer : Option (List Addr)

/-- The record type of a listener's family. -/
def Listener.rrType (l : Listener) : UInt16 := if l.ipv6 then 28 else 1

section

variable (lower : Char → Char)

/-- The datagrams for an intent of the listener's family. An error of `buildResponse` is
dropped, and so is an empty response. -/
def sendAnswer (l : Listener) (readings : Readings) (src : UDPAddr) (id : UInt16) :
    List (UDPAddr × Bytes) :=
  match buildResponse id (fqdn l.hostname) (ifaceUsableIPs readings.atAnswer l.ipv6) l.rrType with
  | .error _ => []
  | .ok resp => if resp.length > 0 then [(src, resp), (l.group, resp)] else []

/-- One turn of the loop of `serveUDP`: the datagrams that are sent, and where to. -/
def serveOne (l : Listener) (readings : Readings) (d : Datagram) :
    Except Panic (List (UDPAddr × Bytes)) :=
  -- the buffer holds so many bytes
  let packet := d.payload.take maxPacketSize
  if packet.length = 0 then .ok []
  else if sourceIPMatchesInterface readings.atSource d.src.ip l.ipv6 then
    match (parseIntent lower packet (fqdn l.hostname)).run with
    | .error panic => .error panic
    | .ok (.error _) => .ok []
    | .ok (.ok (hdr, intent)) =>
      .ok ((if intent.wantA && !l.ipv6 then sendAnswer l readings d.src (UInt16.ofNat hdr.id) else []) ++
        (if intent.wantAAAA && l.ipv6 then sendAnswer l readings d.src (UInt16.ofNat hdr.id) else []))
  else .ok []

end

/-! ## Usable addresses -/

theorem usableLoop_eq (wantV6 : Bool) (addrs : List Addr) {out : List IP} (hout : out.length < 3) :
    usableLoop wantV6 out addrs = (out ++ addrs.filterMap (usableIP wantV6)).take 3 := by
  induction addrs generalizing out with
  | nil =>
    rw [List.filterMap_nil, List.append_nil, List.take_of_length_le (by omega)]
    rfl
  | cons addr addrs ih =>
    unfold usableLoop
    cases hip : usableIP wantV6 addr with
    | none => rw [List.filterMap_cons_none hip, ← ih hout]
    | some ip =>
      have hlen : (out ++ [ip]).length = out.length + 1 := by simp
      have happend : out ++ ip :: addrs.filterMap (usableIP wantV6) =
          (out ++ [ip]) ++ addrs.filterMap (usableIP wantV6) := by simp
      rw [List.filterMap_cons_some hip, happend]
      dsimp only
      split
      · next hfull => rw [List.take_left' (by omega)]
      · next hfull => exact ih (by omega)

theorem ifaceUsableIPs_eq (addrs : List Addr) (wantV6 : Bool) :
    ifaceUsableIPs (some addrs) wantV6 = (addrs.filterMap (usableIP wantV6)).take 3 :=
  usableLoop_eq wantV6 addrs (by decide)

theorem length_ifaceUsableIPs_le (addrs : Option (List Addr)) (wantV6 : Bool) :
    (ifaceUsableIPs addrs wantV6).length ≤ 3 := by
  cases addrs with
  | none => exact Nat.zero_le 3
  | some addrs =>
    rw [ifaceUsableIPs_eq, List.length_take]
    exact Nat.min_le_left _ _

theorem addressFor_usableIP {l : Listener} {addr : Addr} {ip : IP}
    (h : usableIP l.ipv6 addr = some ip) : addressFor l.rrType ip = some ip := by
  unfold usableIP at h
  unfold addressFor Listener.rrType
  dsimp only at h
  split at h
  · cases h
  · cases hv : l.ipv6 with
    | true =>
      rw [hv] at h
      simp only [if_true] at h ⊢
      split at h
      · cases h
      · next husable =>
        cases h
        simp only [isUsableIPv6, Bool.or_eq_true, Bool.not_eq_true', not_or, Bool.not_eq_true,
          Bool.not_eq_false, Bool.and_eq_true] at husable
        have h4 : addr.ip.to4.isNone = true := by
          cases h4 : addr.ip.to4 with
          | none => rfl
          | some a =>
            rw [h4] at husable
            exact absurd husable.1 (by simp)
        rw [if_neg (by decide), if_pos h4]
        obtain ⟨a, ha⟩ : ∃ a, addr.ip.to16 = some a := by
          cases h16 : addr.ip.to16 with
          | none =>
            rw [h16] at husable
            simp at husable
          | some a => exact ⟨a, rfl⟩
        have hlen : addr.ip.length ≠ 4 := by
          intro hlen
          rw [IP.to4_of_length hlen] at h4
          cases h4
        unfold IP.to16 at ha ⊢
        rw [if_neg hlen] at ha ⊢
        split at ha
        · next hlen16 => rw [if_pos hlen16]
        · cases ha
    | false =>
      rw [hv] at h
      simp only [Bool.false_eq_true, if_false] at h ⊢
      split at h
      · cases h
      · next v4 hv4 =>
        split at h
        · cases h
        · cases h
          exact IP.to4_of_length (IP.length_to4 hv4)

theorem filterMap_usable (l : Listener) (addrs : Option (List Addr)) :
    (ifaceUsableIPs addrs l.ipv6).filterMap (addressFor l.rrType) = ifaceUsableIPs addrs l.ipv6 := by
  cases addrs with
  | none => rfl
  | some addrs =>
    have hall : ∀ ip ∈ ifaceUsableIPs (some addrs) l.ipv6, addressFor l.rrType ip = some ip := by
      intro ip hip
      rw [ifaceUsableIPs_eq] at hip
      obtain ⟨addr, -, haddr⟩ := List.mem_filterMap.1 (List.mem_of_mem_take hip)
      exact addressFor_usableIP haddr
    rw [List.filterMap_congr hall, List.filterMap_some]

/-! ## The answer -/

section

variable {lower : Char → Char} {v h packet : Bytes} {l : Listener} {hdr : DnsHeader}
  {intent : QueryIntent} {readings : Readings}

theorem length_of_normalize (hh : normalizeHostname lower v = .ok h) : 1 ≤ h.length ∧ h.length ≤ 63 := by
  unfold normalizeHostname at hh
  dsimp only at hh
  split at hh
  · cases hh
  split at hh
  · cases hh
  split at hh
  · cases hh
  · cases hh
    omega

theorem encodeName_fqdn (hh : normalizeHostname lower v = .ok h) :
    ∃ encName, encodeName (fqdn h) = .ok encName ∧ encName.length = h.length + 8 := by
  obtain ⟨hpos, hle⟩ := length_of_normalize hh
  have hbytes := hostByte_of_normalize hh
  have hsplit : (fqdn h).splitOn 0x2e = [h, ascii "local"] := by
    have hjoin : fqdn h = [0x2e].intercalate [h, ascii "local"] := by
      simp [fqdn, List.intercalate, ascii]
    rw [hjoin]
    apply List.splitOn_intercalate
    · simp only [List.forall_mem_cons, List.not_mem_nil, false_imp_iff, implies_true, and_true]
      exact ⟨fun hdot => (hbytes _ hdot).noDot rfl, by decide +kernel⟩
    · exact List.cons_ne_nil _ _
  have hlocal : (ascii "local").length = 5 := by decide
  have hname : encodeName (fqdn h) = .ok (([] ++ [UInt8.ofNat h.length] ++ h ++
      [UInt8.ofNat (ascii "local").length] ++ ascii "local") ++ [0]) := by
    unfold encodeName
    rw [hsplit]
    simp only [encodeLabels]
    rw [if_neg (by omega), if_neg (by omega)]
    change (if _ then _ else _) = _
    rw [if_neg]
    · rfl
    · simp only [List.length_append, List.length_cons, List.length_nil, hlocal, maxNameLength]
      omega
  have hlen : (fqdn h).length = h.length + 6 := by
    rw [fqdn, List.length_append]
    rfl
  refine ⟨_, hname, ?_⟩
  rw [(encodeName_ok hname).2.2.1, hlen]

theorem recordLoop_eq {encName : Bytes} {rrType : UInt16} {answers : List IP}
    (hlen : ∀ a ∈ answers, a.length = addressLength rrType)
    (hsize : (packet ++ answers.flatMap (recordBytes encName rrType)).length ≤ maxPacketSize) :
    recordLoop encName rrType packet answers =
      .ok (packet ++ answers.flatMap (recordBytes encName rrType)) := by
  induction answers generalizing packet with
  | nil => rw [recordLoop, List.flatMap_nil, List.append_nil]
  | cons a answers ih =>
    obtain ⟨ha, hanswers⟩ := List.forall_mem_cons.1 hlen
    rw [List.flatMap_cons, ← List.append_assoc] at hsize ⊢
    have hone : (packet ++ recordBytes encName rrType a).length ≤ maxPacketSize := by
      rw [List.length_append] at hsize
      omega
    rw [recordLoop, appendRecord_eq encName packet ha, if_neg (by omega)]
    exact ih hanswers hsize

theorem length_recordBytes {encName a : Bytes} {rrType : UInt16} :
    (recordBytes encName rrType a).length = encName.length + 10 + a.length := by
  simp only [recordBytes, List.length_append, length_putUint16, List.length_cons, List.length_nil]
  omega

theorem length_records_le {encName : Bytes} {rrType : UInt16} {answers : List IP}
    (hlen : ∀ a ∈ answers, a.length = addressLength rrType) :
    (answers.flatMap (recordBytes encName rrType)).length ≤ answers.length * (encName.length + 26) := by
  have haddress : addressLength rrType ≤ 16 := by
    unfold addressLength
    split <;> decide
  induction answers with
  | nil => exact Nat.zero_le _
  | cons a answers ih =>
    obtain ⟨ha, hanswers⟩ := List.forall_mem_cons.1 hlen
    have hrest := ih hanswers
    rw [List.flatMap_cons, List.length_append, length_recordBytes, List.length_cons, Nat.succ_mul]
    omega

/-- What the response for the host holds, as it is read. -/
structure Answered (lower : Char → Char) (h : Bytes) (id : Nat) (rrType : UInt16) (addrs : List IP)
    (resp : Bytes) : Prop where
  read : Yields (readResponse lower resp)
    (⟨id, 0x8400, 0, addrs.length, 0, 0⟩, addrs.map fun ip => ⟨fqdn h, rrType.toNat, 0x8001, 240, ip⟩,
      resp.length)
  size : resp.length ≤ maxPacketSize

theorem toLower_fqdn (hh : normalizeHostname lower v = .ok h) : toLower lower (fqdn h) = fqdn h := by
  apply toLower_of_map
  · intro b hb
    rcases List.mem_append.1 hb with hb | hb
    · exact ⟨(hostByte_of_normalize hh b hb).ascii, (hostByte_of_normalize hh b hb).lower⟩
    · have hall : ∀ b ∈ ascii ".local", b < 0x80 ∧ lowerByte b = b := by decide +kernel
      exact hall b hb
  · rfl

theorem buildResponse_usable (hh : normalizeHostname lower v = .ok h) (l : Listener) (id : UInt16)
    {addrs : Option (List Addr)} (hne : ifaceUsableIPs addrs l.ipv6 ≠ []) :
    ∃ resp, buildResponse id (fqdn h) (ifaceUsableIPs addrs l.ipv6) l.rrType = .ok resp ∧
      0 < resp.length ∧ Answered lower h id.toNat l.rrType (ifaceUsableIPs addrs l.ipv6) resp := by
  have hrr : l.rrType = 1 ∨ l.rrType = 28 := by
    unfold Listener.rrType
    cases l.ipv6
    · exact .inl rfl
    · exact .inr rfl
  have hfilter := filterMap_usable l addrs
  have hthree := length_ifaceUsableIPs_le addrs l.ipv6
  have hlen : ∀ a ∈ ifaceUsableIPs addrs l.ipv6, a.length = addressLength l.rrType := by
    rw [← hfilter]
    exact length_of_mem_filterMap _
  obtain ⟨encName, hname, hnameLen⟩ := encodeName_fqdn hh
  obtain ⟨-, hhost⟩ := length_of_normalize hh
  generalize ifaceUsableIPs addrs l.ipv6 = usable at hne hfilter hthree hlen
  have hhead : (responseHeader id usable.length).length = 12 := by
    simp only [responseHeader, List.length_append, length_putUint16]
  have hrecords : (usable.flatMap (recordBytes encName l.rrType)).length ≤
      usable.length * (encName.length + 26) := length_records_le hlen
  have hmul : usable.length * (encName.length + 26) ≤ 3 * (encName.length + 26) :=
    Nat.mul_le_mul_right _ hthree
  have hsize : (responseHeader id usable.length ++
      usable.flatMap (recordBytes encName l.rrType)).length ≤ maxPacketSize := by
    rw [List.length_append, hhead, maxPacketSize]
    omega
  have hpos : usable.length ≠ 0 := fun h0 => hne (List.length_eq_zero_iff.1 h0)
  refine ⟨_, ?_, ?_, ?_, hsize⟩
  · unfold buildResponse
    rw [if_neg hpos, hname]
    dsimp only
    rw [collectAnswers_eq hrr, hfilter, if_neg hpos, recordLoop_eq hlen hsize]
  · rw [List.length_append, hhead]
    omega
  · have hhdr := yields_readHeader_response id (by omega : usable.length < 65536)
      (usable.flatMap (recordBytes encName l.rrType))
    have hat : Window (responseHeader id usable.length ++ usable.flatMap (recordBytes encName l.rrType)) 12
        (usable.flatMap (recordBytes encName l.rrType)) :=
      ⟨responseHeader id usable.length, [], by rw [List.append_nil], hhead⟩
    have hread : Yields (readRecords lower _ usable.length 12)
        (usable.map (recordFor lower (fqdn h) l.rrType), _) := yields_readRecords hname hlen hat
    have hend : (responseHeader id usable.length ++ usable.flatMap (recordBytes encName l.rrType)).length =
        12 + (usable.flatMap (recordBytes encName l.rrType)).length := by
      rw [List.length_append, hhead]
    have hmap : usable.map (recordFor lower (fqdn h) l.rrType) =
        usable.map fun ip => ⟨fqdn h, l.rrType.toNat, 0x8001, 240, ip⟩ := by
      unfold recordFor
      rw [toLower_fqdn hh]
    rw [← hend, hmap] at hread
    exact yields_bind.2 ⟨_, hhdr, yields_bind.2 ⟨_, hread, yields_pure.2 rfl⟩⟩

/-- The listener has an answer to the datagram: it comes from the network of the interface,
it is a query with a question of the listener's family for a name with the text of the
host's, and the interface has a usable address. -/
structure Wanted (lower : Char → Char) (l : Listener) (readings : Readings) (d : Datagram)
    (hdr : DnsHeader) : Prop where
  source : sourceIPMatchesInterface readings.atSource d.src.ip l.ipv6 = true
  parsed : ∃ intent, Yields (parseIntent lower (d.payload.take maxPacketSize) (fqdn l.hostname)) (hdr, intent)
  query : IsQuery (d.payload.take maxPacketSize)
  asks : Asks (d.payload.take maxPacketSize) [l.rrType.toNat, 255] fun labels =>
    OwnName l.hostname labels ∨ Lookalike lower l.hostname labels
  usable : ifaceUsableIPs readings.atAnswer l.ipv6 ≠ []

theorem header_of_parseIntent {name : Bytes}
    (h : Yields (parseIntent lower packet name) (hdr, intent)) : Yields (readHeader packet) hdr := by
  obtain ⟨hdr', hhdr, h⟩ := yields_bind.1 h
  rcases yields_ite.1 h with ⟨-, h⟩ | ⟨-, h⟩
  · cases yields_pure.1 h
    exact hhdr
  · obtain ⟨questions, -, h⟩ := yields_bind.1 h
    cases yields_pure.1 h
    exact hhdr

theorem uint16Of_lt {i j n : Nat} (h : uint16Of packet i j = .ok n) : n < 65536 := by
  obtain ⟨b, -, h⟩ := Logic.except_bind_ok h
  obtain ⟨lo, -, h⟩ := Logic.except_bind_ok h
  obtain ⟨hi, -, h⟩ := Logic.except_bind_ok h
  cases h
  have hlo := lo.toNat_lt
  have hhi := hi.toNat_lt
  omega

theorem id_lt_of_readHeader (h : Yields (readHeader packet) hdr) : hdr.id < 65536 := by
  rcases yields_ite.1 h with ⟨-, hfail⟩ | ⟨-, h⟩
  · exact absurd hfail not_yields_fail
  obtain ⟨id, hid, h⟩ := yields_bind.1 h
  obtain ⟨flags, -, h⟩ := yields_bind.1 h
  obtain ⟨qdCount, -, h⟩ := yields_bind.1 h
  obtain ⟨anCount, -, h⟩ := yields_bind.1 h
  obtain ⟨nsCount, -, h⟩ := yields_bind.1 h
  obtain ⟨arCount, -, h⟩ := yields_bind.1 h
  cases yields_pure.1 h
  exact uint16Of_lt (yields_lift.1 hid)

theorem serveOne_of_parse {d : Datagram}
    (hsource : sourceIPMatchesInterface readings.atSource d.src.ip l.ipv6 = true)
    (hparse : Yields (parseIntent lower (d.payload.take maxPacketSize) (fqdn l.hostname)) (hdr, intent)) :
    serveOne lower l readings d =
      .ok (if (if l.ipv6 then intent.wantAAAA else intent.wantA) then
        sendAnswer l readings d.src (UInt16.ofNat hdr.id) else []) := by
  have hne : (d.payload.take maxPacketSize).length ≠ 0 := by
    intro hzero
    rw [List.length_eq_zero_iff.1 hzero] at hparse
    exact not_yields_fail (header_of_parseIntent hparse)
  unfold serveOne
  dsimp only
  rw [if_neg hne, if_pos hsource, hparse]
  cases hv : l.ipv6 <;> simp

theorem serveOne_cases (l : Listener) (readings : Readings) (d : Datagram) :
    (serveOne lower l readings d = .ok [] ∧ ∀ hdr, ¬ Wanted lower l readings d hdr) ∨
    (sourceIPMatchesInterface readings.atSource d.src.ip l.ipv6 = true ∧ ∃ hdr intent,
      Yields (parseIntent lower (d.payload.take maxPacketSize) (fqdn l.hostname)) (hdr, intent)) := by
  by_cases hsource : sourceIPMatchesInterface readings.atSource d.src.ip l.ipv6 = true
  · have hsafe : Safe (parseIntent lower (d.payload.take maxPacketSize) (fqdn l.hostname)) fun _ => True :=
      safe_parseIntent (fqdn l.hostname)
    obtain ⟨result, hresult⟩ := hsafe.returns
    cases result with
    | error text =>
      refine .inl ⟨?_, ?_⟩
      · unfold serveOne
        dsimp only
        rw [if_pos hsource, hresult]
        exact ite_self _
      · intro hdr hwanted
        obtain ⟨intent, hparse⟩ := hwanted.parsed
        rw [Yields, hresult] at hparse
        cases hparse
    | ok value => exact .inr ⟨hsource, value.1, value.2, hresult⟩
  · refine .inl ⟨?_, fun hdr hwanted => hsource hwanted.source⟩
    unfold serveOne
    dsimp only
    rw [if_neg hsource]
    exact ite_self _

theorem wants_iff (hh : normalizeHostname lower v = .ok h) (hl : l.hostname = h)
    (hparse : Yields (parseIntent lower packet (fqdn l.hostname)) (hdr, intent)) :
    (if l.ipv6 then intent.wantAAAA else intent.wantA) = true ↔
      IsQuery packet ∧ Asks packet [l.rrType.toNat, 255] fun labels =>
        OwnName l.hostname labels ∨ Lookalike lower l.hostname labels := by
  have htext : (fun labels => toLower lower (joinDots labels) = fqdn l.hostname) =
      fun labels => OwnName l.hostname labels ∨ Lookalike lower l.hostname labels := by
    subst hl
    funext labels
    exact propext (text_eq_fqdn_iff (hostByte_of_normalize hh) labels)
  obtain ⟨hA, hAAAA⟩ := intent_of_parse hparse
  rw [htext] at hA hAAAA
  unfold Listener.rrType
  cases l.ipv6 with
  | false => exact hA
  | true => exact hAAAA

theorem sendAnswer_nil (src : UDPAddr) (id : UInt16)
    (hnone : ifaceUsableIPs readings.atAnswer l.ipv6 = []) : sendAnswer l readings src id = [] := by
  unfold sendAnswer
  rw [hnone]
  rfl

theorem serveOne_spec (hh : normalizeHostname lower v = .ok h) (hl : l.hostname = h)
    (readings : Readings) (d : Datagram) :
    (serveOne lower l readings d = .ok [] ∧ ∀ hdr, ¬ Wanted lower l readings d hdr) ∨
    ∃ hdr resp, Wanted lower l readings d hdr ∧
      serveOne lower l readings d = .ok [(d.src, resp), (l.group, resp)] ∧
      Answered lower h hdr.id l.rrType (ifaceUsableIPs readings.atAnswer l.ipv6) resp := by
  rcases serveOne_cases l readings d with hnothing | ⟨hsource, hdr, intent, hparse⟩
  · exact .inl hnothing
  rw [serveOne_of_parse hsource hparse]
  have hwants := wants_iff hh hl hparse
  by_cases hwant : (if l.ipv6 then intent.wantAAAA else intent.wantA) = true
  · rw [if_pos hwant]
    by_cases husable : ifaceUsableIPs readings.atAnswer l.ipv6 = []
    · rw [sendAnswer_nil d.src _ husable]
      exact .inl ⟨rfl, fun hdr' hw => hw.usable husable⟩
    · right
      obtain ⟨resp, hbuild, hpos, hanswered⟩ := buildResponse_usable hh l (UInt16.ofNat hdr.id) husable
      have hid : (UInt16.ofNat hdr.id).toNat = hdr.id :=
        UInt16.toNat_ofNat_of_lt' (id_lt_of_readHeader (header_of_parseIntent hparse))
      rw [hid] at hanswered
      refine ⟨hdr, resp, ⟨hsource, ⟨intent, hparse⟩, (hwants.1 hwant).1, (hwants.1 hwant).2, husable⟩,
        ?_, hanswered⟩
      unfold sendAnswer
      rw [hl, hbuild]
      dsimp only
      rw [if_pos hpos]
  · rw [if_neg hwant]
    exact .inl ⟨rfl, fun hdr' hw => hwant (hwants.2 ⟨hw.query, hw.asks⟩)⟩

theorem Wanted.unique {d : Datagram} {hdr' : DnsHeader}
    (hw : Wanted lower l readings d hdr) (hw' : Wanted lower l readings d hdr') : hdr = hdr' := by
  obtain ⟨intent, hparse⟩ := hw.parsed
  obtain ⟨intent', hparse'⟩ := hw'.parsed
  cases hparse.unique hparse'
  rfl

end

/-- The host, on an interface with an address of each family. -/
def sampleListener : Listener :=
  { group := ⟨[224, 0, 0, 251], 5353⟩, hostname := ascii "host", ipv6 := false }

def sampleReadings : Readings :=
  let addrs := [Addr.ipNet ⟨[127, 0, 0, 1], [255, 0, 0, 0]⟩, Addr.ipNet ⟨[10, 0, 0, 7], [255, 255, 255, 0]⟩]
  { atSource := some addrs, atAnswer := some addrs }

def sampleDatagram : Datagram := ⟨⟨[10, 0, 0, 9], 5353⟩, plainQuery⟩

theorem wanted_sample :
    Wanted id sampleListener sampleReadings sampleDatagram ⟨0, 0, 1, 0, 0, 0⟩ where
  source := by decide +kernel
  parsed := ⟨⟨true, false⟩, by decide +kernel⟩
  query := ⟨0, by decide +kernel, by decide⟩
  asks := ⟨1, _, by decide +kernel, asked_plainQuery, _, List.mem_singleton_self _, by decide,
    .inl ⟨_, _, rfl, by decide +kernel, by decide +kernel⟩⟩
  usable := by decide +kernel

end Dockerset.Mdns

import Dockerset.Go.Utf8

/-!
# The server name of a ClientHello (`parseSNI` in `internal/proxy/proxy.go`)

`parseSNI` walks through a TLS record with an offset that the lengths in the
record drive. Every index and slice expression of it can panic here; the two
loops are total because the offset grows.
-/

namespace Dockerset.GeoSni
open Go

section

variable (lower : Char → Char) (b : Bytes)

/-- The loop over the entries of a server name list that ends at `listEnd`. -/
def sniNames (listEnd cur : Nat) : Except Panic Bytes :=
  if cur + 3 ≤ listEnd then do
    let nameType ← byteAt b cur
    let nameLen ← slice b (cur + 1) (cur + 1 + 2) >>= bigEndianUint16
    let cur := cur + 3
    if nameType = 0 then
      if cur + nameLen > b.length then return []
      return toLower lower (← slice b cur (cur + nameLen))
    sniNames listEnd (cur + nameLen)
  else return []
termination_by listEnd - cur

/-- The loop over the extensions, which end at `extEnd`. -/
def sniExtensions (extEnd offset : Nat) : Except Panic Bytes :=
  if offset + 4 ≤ extEnd ∧ extEnd ≤ b.length then do
    let typ ← slice b offset (offset + 2) >>= bigEndianUint16
    let l ← slice b (offset + 2) (offset + 2 + 2) >>= bigEndianUint16
    let offset := offset + 4
    if typ = 0x00 then
      if offset + 2 > b.length then return []
      let listLen ← slice b offset (offset + 2) >>= bigEndianUint16
      let offset := offset + 2
      if offset + listLen > b.length then return []
      return ← sniNames lower b (offset + listLen) offset
    sniExtensions extEnd (offset + l)
  else return []
termination_by extEnd - offset

/-- `parseSNI(b)`. -/
def parseSNI : Except Panic Bytes := do
  if b.length < 5 then return []
  if (← byteAt b 0) ≠ 0x16 then return []
  let handshakeLen ← slice b 3 (3 + 2) >>= bigEndianUint16
  if b.length < 5 + handshakeLen then return []
  let offset := 5
  if (← byteAt b offset) ≠ 0x01 then return []
  let offset := offset + 1
  if offset + 3 > b.length then return []
  -- the handshake length is read and not used
  let _ ← byteAt b offset
  let _ ← byteAt b (offset + 1)
  let _ ← byteAt b (offset + 2)
  let offset := offset + 3
  -- version and random
  let offset := offset + 2
  let offset := offset + 32
  if offset ≥ b.length then return []
  if offset + 1 > b.length then return []
  let sessionIDLen ← byteAt b offset
  let offset := offset + (1 + sessionIDLen.toNat)
  if offset + 2 > b.length then return []
  let cipherSuiteLen ← slice b offset (offset + 2) >>= bigEndianUint16
  let offset := offset + (2 + cipherSuiteLen)
  if offset + 1 > b.length then return []
  let compLen ← byteAt b offset
  let offset := offset + (1 + compLen.toNat)
  if offset + 2 > b.length then return []
  let extLen ← slice b offset (offset + 2) >>= bigEndianUint16
  let offset := offset + 2
  sniExtensions lower b (offset + extLen) offset

end

/-! ## Where it panics -/

section

variable {lower : Char → Char} {b : Bytes}

theorem returns_sniNames (listEnd cur : Nat) (h : listEnd ≤ b.length) :
    Returns (sniNames lower b listEnd cur) := by
  induction cur using sniNames.induct listEnd with
  | case1 cur hcur ih =>
    rw [sniNames, if_pos hcur]
    apply Returns.bind (returns_byteAt (by omega))
    intro nameType _
    apply Returns.bind (returns_uint16 (by omega))
    intro nameLen _
    apply Returns.ite
    · intro _
      apply Returns.ite
      · exact fun _ => Returns.pure _
      · intro hlen
        apply Returns.bind (returns_slice (by omega) (by omega))
        exact fun _ _ => Returns.pure _
    · exact fun _ => ih nameLen
  | case2 cur hcur =>
    rw [sniNames, if_neg hcur]
    exact Returns.pure _

theorem returns_sniExtensions (extEnd offset : Nat) : Returns (sniExtensions lower b extEnd offset) := by
  induction offset using sniExtensions.induct b extEnd with
  | case1 offset h ih =>
    rw [sniExtensions, if_pos h]
    apply Returns.bind (returns_uint16 (by omega))
    intro typ _
    apply Returns.bind (returns_uint16 (by omega))
    intro l _
    apply Returns.ite
    · intro _
      apply Returns.ite
      · exact fun _ => Returns.pure _
      · intro hlist
        apply Returns.bind (returns_uint16 (by omega))
        intro listLen _
        apply Returns.ite
        · exact fun _ => Returns.pure _
        · intro hend
          exact returns_sniNames _ _ (by omega)
    · exact fun _ => ih l
  | case2 offset h =>
    rw [sniExtensions, if_neg h]
    exact Returns.pure _

/-- A record header for an empty handshake message. -/
def EmptyRecord (b : Bytes) : Prop :=
  b.length = 5 ∧ b[0]? = some 0x16 ∧ b[3]? = some 0 ∧ b[4]? = some 0

instance (b : Bytes) : Decidable (EmptyRecord b) := inferInstanceAs (Decidable (_ ∧ _ ∧ _ ∧ _))

/-- A handshake record whose declared length fits has a byte to look at, unless
it is empty. -/
theorem length_of_not_emptyRecord (h : ¬ EmptyRecord b) (hlen : 5 ≤ b.length)
    (hkind : byteAt b 0 = .ok 0x16)
    (hfits : ¬ b.length < 5 + (b[3].toNat * 256 + b[4].toNat)) : 5 < b.length := by
  by_contra hshort
  have hzero : b[3].toNat = 0 ∧ b[4].toNat = 0 := by omega
  rw [byteAt_of_lt (by omega)] at hkind
  apply h
  refine ⟨by omega, ?_, ?_, ?_⟩
  · rw [List.getElem?_eq_getElem (by omega)]
    exact congrArg some (Except.ok.inj hkind)
  · rw [List.getElem?_eq_getElem (by omega)]
    exact congrArg some (UInt8.toNat_inj.1 hzero.1)
  · rw [List.getElem?_eq_getElem (by omega)]
    exact congrArg some (UInt8.toNat_inj.1 hzero.2)

/-- Past the header every access is guarded. -/
theorem returns_parseSNI (h : ¬ EmptyRecord b) : Returns (parseSNI lower b) := by
  unfold parseSNI
  apply Returns.ite
  · exact fun _ => Returns.pure _
  intro hlen
  apply Returns.bind (returns_byteAt (by omega))
  intro kind hkind
  apply Returns.ite
  · exact fun _ => Returns.pure _
  intro h16
  rw [not_not] at h16
  subst h16
  apply Returns.bind (returns_uint16 (by omega))
  intro handshakeLen hhl
  rw [uint16_of_le (by omega)] at hhl
  apply Returns.ite
  · exact fun _ => Returns.pure _
  intro hfits
  rw [← Except.ok.inj hhl] at hfits
  have hlong := length_of_not_emptyRecord h (by omega) hkind hfits
  apply Returns.bind (returns_byteAt (by omega))
  intro _ _
  apply Returns.ite
  · exact fun _ => Returns.pure _
  intro _
  apply Returns.ite
  · exact fun _ => Returns.pure _
  intro hmsg
  apply Returns.bind (returns_byteAt (by omega))
  intro _ _
  apply Returns.bind (returns_byteAt (by omega))
  intro _ _
  apply Returns.bind (returns_byteAt (by omega))
  intro _ _
  apply Returns.ite
  · exact fun _ => Returns.pure _
  intro hrandom
  apply Returns.ite
  · exact fun _ => Returns.pure _
  intro _
  apply Returns.bind (returns_byteAt (by omega))
  intro sessionIDLen _
  apply Returns.ite
  · exact fun _ => Returns.pure _
  intro hsession
  apply Returns.bind (returns_uint16 (by omega))
  intro cipherSuiteLen _
  apply Returns.ite
  · exact fun _ => Returns.pure _
  intro hcipher
  apply Returns.bind (returns_byteAt (by omega))
  intro compLen _
  apply Returns.ite
  · exact fun _ => Returns.pure _
  intro hcomp
  apply Returns.bind (returns_uint16 (by omega))
  intro extLen _
  exact returns_sniExtensions _ _

theorem parseSNI_emptyRecord (h : EmptyRecord b) : parseSNI lower b = .error .index := by
  obtain ⟨hlen, h0, h3, h4⟩ := h
  have hkind : byteAt b 0 = .ok 0x16 := by rw [byteAt, h0]
  have hlow : byteAt b 5 = .error .index := by
    rw [byteAt, List.getElem?_eq_none (by omega)]
  have hsize : (slice b 3 (3 + 2) >>= bigEndianUint16) = .ok 0 := by
    rw [List.getElem?_eq_getElem (by omega)] at h3 h4
    rw [uint16_of_le (by omega), Option.some.inj h3, Option.some.inj h4]
    rfl
  unfold parseSNI
  rw [if_neg (by omega), hkind, ok_bind, if_neg (by simp), hsize, ok_bind, if_neg (by omega)]
  change (byteAt b 5 >>= _) = _
  rw [hlow]
  rfl

/-- **`parseSNI` panics on an empty handshake record and on nothing else.** -/
theorem parseSNI_returns_iff (lower : Char → Char) (b : Bytes) :
    Returns (parseSNI lower b) ↔ ¬ EmptyRecord b := by
  constructor
  · rintro ⟨name, hname⟩ hempty
    rw [parseSNI_emptyRecord hempty] at hname
    cases hname
  · exact returns_parseSNI

/-- Five bytes that a client can send: the body that `handleTLSConn` reads after
them is empty. -/
theorem parseSNI_panics : ¬ Returns (parseSNI id [0x16, 0x03, 0x01, 0x00, 0x00]) := by
  rintro ⟨name, hname⟩
  rw [parseSNI_emptyRecord (by decide)] at hname
  cases hname

end

end Dockerset.GeoSni

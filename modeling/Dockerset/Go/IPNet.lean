import Dockerset.Go.IP

/-!
# Kinds of addresses, and networks (`net.IP`, `net.IPNet`)

A network is an address with a mask. `contains` compares an address with it byte by
byte under the mask, after both were brought to their shorter form.
-/

namespace Dockerset.Go

namespace IP

/-- `ip.Equal(x)`: the two forms of an IPv4 address are equal. -/
def equal (ip x : IP) : Bool :=
  if ip.length = x.length then ip == x
  else if ip.length = 4 ∧ x.length = 16 then v4InV6Prefix.isPrefixOf x && ip == x.drop 12
  else if ip.length = 16 ∧ x.length = 4 then v4InV6Prefix.isPrefixOf ip && ip.drop 12 == x
  else false

/-- `ip.IsUnspecified()`. -/
def isUnspecified (ip : IP) : Bool :=
  ip.equal (v4InV6Prefix ++ [0, 0, 0, 0]) || ip.equal (List.replicate 16 0)

/-- `ip.IsLoopback()`. -/
def isLoopback (ip : IP) : Bool :=
  match ip.to4 with
  | some ip4 => ip4.headD 0 == 127
  | none => ip.equal (List.replicate 15 0 ++ [1])

/-- `ip.IsMulticast()`. -/
def isMulticast (ip : IP) : Bool :=
  match ip.to4 with
  | some ip4 => ip4.headD 0 &&& 0xf0 == 0xe0
  | none => ip.length == 16 && ip.headD 0 == 0xff

/-- `ip.IsLinkLocalUnicast()`. -/
def isLinkLocalUnicast (ip : IP) : Bool :=
  match ip.to4 with
  | some ip4 => ip4.headD 0 == 169 && ip4.getD 1 0 == 254
  | none => ip.length == 16 && ip.headD 0 == 0xfe && ip.getD 1 0 &&& 0xc0 == 0x80

end IP

/-- `net.IPNet`. -/
structure IPNet where
  ip : IP
  mask : Bytes
deriving DecidableEq

namespace IPNet

/-- `networkNumberAndMask(n)`. -/
def networkNumberAndMask (n : IPNet) : Option (Bytes × Bytes) :=
  let ip := n.ip.to4.getD n.ip
  if ip.length = 4 then
    if n.mask.length = 4 then some (ip, n.mask)
    else if n.mask.length = 16 then some (ip, n.mask.drop 12)
    else none
  else if ip.length = 16 ∧ n.mask.length = 16 then some (ip, n.mask)
  else none

/-- Equal under the mask, byte by byte. -/
def maskedEq : Bytes → Bytes → Bytes → Bool
  | n :: nn, m :: mask, x :: ip => n &&& m == x &&& m && maskedEq nn mask ip
  | _, _, _ => true

/-- `n.Contains(ip)`. -/
def contains (n : IPNet) (ip : IP) : Bool :=
  let ip := ip.to4.getD ip
  match n.networkNumberAndMask with
  | none => ip.length == 0
  | some (nn, m) => ip.length == nn.length && maskedEq nn m ip

/-- Two networks agree where both masks look. -/
def overlap (n n' : IPNet) : Bool :=
  match n.networkNumberAndMask, n'.networkNumberAndMask with
  | some (nn, m), some (nn', m') =>
    nn.length == nn'.length && maskedEq nn (m.zipWith (fun a b => a &&& b) m') nn'
  | _, _ => false

/-! ## Networks with an address in common -/

theorem maskedEq_common {nn nn' m m' ip : Bytes} (h : maskedEq nn m ip = true)
    (h' : maskedEq nn' m' ip = true) (hlen : nn.length = ip.length) (hlen' : nn'.length = ip.length) :
    maskedEq nn (m.zipWith (fun a b => a &&& b) m') nn' = true := by
  induction ip generalizing nn nn' m m' with
  | nil =>
    rw [List.length_eq_zero_iff.1 hlen]
    rfl
  | cons x ip ih =>
    cases nn with
    | nil => cases hlen
    | cons n nn =>
    cases nn' with
    | nil => cases hlen'
    | cons n' nn' =>
    cases m with
    | nil => rfl
    | cons a m =>
    cases m' with
    | nil => rfl
    | cons b m' =>
      simp only [maskedEq, Bool.and_eq_true, beq_iff_eq] at h h'
      simp only [List.zipWith_cons_cons, maskedEq, Bool.and_eq_true, beq_iff_eq]
      refine ⟨?_, ih h.2 h'.2 (Nat.succ.inj hlen) (Nat.succ.inj hlen')⟩
      calc n &&& (a &&& b) = (n &&& a) &&& b := (UInt8.and_assoc n a b).symm
        _ = (x &&& b) &&& a := by rw [h.1, UInt8.and_assoc, UInt8.and_comm a b, ← UInt8.and_assoc]
        _ = n' &&& (a &&& b) := by rw [← h'.1, UInt8.and_assoc, UInt8.and_comm b a]

theorem network_of_contains {n : IPNet} {ip : IP} (hip : ip ≠ []) (h : n.contains ip = true) :
    ∃ nn m, n.networkNumberAndMask = some (nn, m) ∧ (ip.to4.getD ip).length = nn.length ∧
      maskedEq nn m (ip.to4.getD ip) = true := by
  unfold contains at h
  dsimp only at h
  cases hn : n.networkNumberAndMask with
  | none =>
    rw [hn, beq_iff_eq] at h
    cases h4 : ip.to4 with
    | none =>
      rw [h4, Option.getD_none, List.length_eq_zero_iff] at h
      exact absurd h hip
    | some a =>
      rw [h4, Option.getD_some, IP.length_to4 h4] at h
      cases h
  | some network =>
    rw [hn, Bool.and_eq_true, beq_iff_eq] at h
    exact ⟨_, _, rfl, h⟩

theorem overlap_of_contains {n n' : IPNet} {ip : IP} (hip : ip ≠ []) (h : n.contains ip = true)
    (h' : n'.contains ip = true) : n.overlap n' = true := by
  obtain ⟨nn, m, hn, hlen, heq⟩ := network_of_contains hip h
  obtain ⟨nn', m', hn', hlen', heq'⟩ := network_of_contains hip h'
  unfold overlap
  rw [hn, hn']
  simp only [Bool.and_eq_true, beq_iff_eq]
  exact ⟨by rw [← hlen, ← hlen'], maskedEq_common heq heq' hlen.symm hlen'.symm⟩

end IPNet

end Dockerset.Go

import Dockerset.Go.Bytes

/-!
# Addresses (`net.IP`)

A `net.IP` is a byte string; four bytes are an IPv4 address, sixteen an IPv6
address or, behind a fixed prefix, an IPv4 address again. The methods return nil
for every other length.
-/

namespace Dockerset.Go

abbrev IP := Bytes

/-- What comes before an IPv4 address in its form of sixteen bytes. -/
def v4InV6Prefix : Bytes := [0, 0, 0, 0, 0, 0, 0, 0, 0, 0, 0xff, 0xff]

namespace IP

/-- `ip.To4()`. -/
def to4 (ip : IP) : Option Bytes :=
  if ip.length = 4 then some ip
  else if ip.length = 16 ∧ v4InV6Prefix.isPrefixOf ip then some (ip.drop 12)
  else none

/-- `ip.To16()`. -/
def to16 (ip : IP) : Option Bytes :=
  if ip.length = 4 then some (v4InV6Prefix ++ ip)
  else if ip.length = 16 then some ip
  else none

variable {ip : IP} {a : Bytes}

theorem to4_of_length (h : ip.length = 4) : ip.to4 = some ip := if_pos h

theorem to16_of_length (h : ip.length = 16) : ip.to16 = some ip := by
  rw [to16, if_neg (by omega), if_pos h]

theorem length_to4 (h : ip.to4 = some a) : a.length = 4 := by
  unfold to4 at h
  split at h
  · next hlen =>
    cases h
    exact hlen
  split at h
  · next hlen =>
    cases h
    rw [List.length_drop, hlen.1]
  · cases h

theorem length_to16 (h : ip.to16 = some a) : a.length = 16 := by
  unfold to16 at h
  split at h
  · next hlen =>
    cases h
    rw [List.length_append, hlen]
    rfl
  split at h
  · next hlen =>
    cases h
    exact hlen
  · cases h

end IP

end Dockerset.Go

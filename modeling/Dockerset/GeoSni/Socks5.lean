import Dockerset.GeoSni.Sni
import Dockerset.Go.Net
import Mathlib.Data.List.GetD

/-!
# The SOCKS5 tunnel (`dialSOCKS5` in `internal/proxy/proxy.go`)

`dialSOCKS5` reads a method reply and a CONNECT reply and looks at one byte of
them, the address type. `Reply` is the language of what it accepts, `Grant` that
of the replies that RFC 1928 counts as a granted tunnel; they share only what
`Reply.grant_iff` says. The request it writes has one byte for the length of the
host, and `decodeRequest` reads it the way a proxy does.
-/

namespace Dockerset.GeoSni
open Go Logic

/-- The greeting: version 5, one method, no authentication. -/
def socks5Greeting : Bytes := [0x05, 0x01, 0x00]

/-- The CONNECT request. Its length byte is `byte(len(hostb))`, its port `uint16(port)`. -/
def socks5Request (host : Bytes) (port : Nat) : Bytes :=
  [0x05, 0x01, 0x00, 0x03, UInt8.ofNat host.length] ++ host ++
    [UInt8.ofNat (port % 65536 / 256), UInt8.ofNat (port % 256)]

/-- The switch over the address type `hdr[3]`. -/
def boundAddrLen (atyp : UInt8) : NetM Nat :=
  if atyp = 0x01 then pure 4
  else if atyp = 0x03 then do
    let lb ← readFull 1
    pure (lb.getD 0 0).toNat
  else if atyp = 0x04 then pure 16
  else pure 0

/-- The bound address and port of a reply. An address of length 0 is not followed
by a read of its port. -/
def readBoundAddr (atyp : UInt8) : NetM Unit := do
  let addrLen ← boundAddrLen atyp
  if addrLen > 0 then discard (readFull (addrLen + 2))

/-- `dialSOCKS5(u, host, port)`, on the connection to `u.Host`. -/
def dialSOCKS5 (host : Bytes) (port : Nat) : NetM Unit := do
  dialConn
  write socks5Greeting
  let _rep ← readFull 2
  write (socks5Request host port)
  let hdr ← readFull 4
  readBoundAddr (hdr.getD 3 0)

/-! ## What it accepts -/

/-- What is read after an address type. -/
inductive Bound : UInt8 → Bytes → Prop
  | ipv4 (t : Bytes) : t.length = 6 → Bound 0x01 t
  | domainEmpty : Bound 0x03 [0]
  | domain (n : UInt8) (t : Bytes) : n ≠ 0 → t.length = n.toNat + 2 → Bound 0x03 (n :: t)
  | ipv6 (t : Bytes) : t.length = 18 → Bound 0x04 t
  | other (atyp : UInt8) : atyp ≠ 0x01 → atyp ≠ 0x03 → atyp ≠ 0x04 → Bound atyp []

/-- The two replies, as the code reads them. -/
def Reply (g : Bytes) : Prop :=
  ∃ head t, head.length = 6 ∧ g = head ++ t ∧ Bound (head.getD 5 0) t

/-- An address and a port after an address type, by RFC 1928. -/
inductive BoundAddr : UInt8 → Bytes → Prop
  | ipv4 (t : Bytes) : t.length = 6 → BoundAddr 0x01 t
  | domain (n : UInt8) (t : Bytes) : t.length = n.toNat + 2 → BoundAddr 0x03 (n :: t)
  | ipv6 (t : Bytes) : t.length = 18 → BoundAddr 0x04 t

/-- A method reply that selects no authentication and a reply that grants the
tunnel, by RFC 1928. -/
def Grant (g : Bytes) : Prop :=
  ∃ rsv atyp t, g = [0x05, 0x00, 0x05, 0x00, rsv, atyp] ++ t ∧ BoundAddr atyp t

/-! ### What is read, for each address type -/

theorem bound_ipv4_iff {t : Bytes} : Bound 0x01 t ↔ t.length = 6 := by
  constructor
  · intro h
    cases h with
    | ipv4 _ hlen => exact hlen
    | other _ h1 => exact absurd rfl h1
  · exact .ipv4 t

theorem bound_ipv6_iff {t : Bytes} : Bound 0x04 t ↔ t.length = 18 := by
  constructor
  · intro h
    cases h with
    | ipv6 _ hlen => exact hlen
    | other _ _ _ h4 => exact absurd rfl h4
  · exact .ipv6 t

theorem bound_domain_iff {t : Bytes} :
    Bound 0x03 t ↔ t = [0] ∨ ∃ n u, n ≠ 0 ∧ t = n :: u ∧ u.length = n.toNat + 2 := by
  constructor
  · intro h
    cases h with
    | domainEmpty => exact .inl rfl
    | domain n u hn hlen => exact .inr ⟨n, u, hn, rfl, hlen⟩
    | other _ _ h3 => exact absurd rfl h3
  · rintro (rfl | ⟨n, u, hn, rfl, hlen⟩)
    · exact .domainEmpty
    · exact .domain n u hn hlen

theorem bound_other_iff {atyp : UInt8} {t : Bytes} (h1 : atyp ≠ 0x01) (h3 : atyp ≠ 0x03)
    (h4 : atyp ≠ 0x04) : Bound atyp t ↔ t = [] := by
  constructor
  · intro h
    cases h with
    | ipv4 => exact absurd rfl h1
    | domainEmpty => exact absurd rfl h3
    | domain => exact absurd rfl h3
    | ipv6 => exact absurd rfl h4
    | other => rfl
  · rintro rfl
    exact .other atyp h1 h3 h4

theorem not_prefix_of_length_lt {t s : Bytes} (h : s.length < t.length) : ¬ t <+: s := by
  intro hpre
  have hle := hpre.length_le
  omega

section Accepts

variable {c : Conn} {host : Bytes} {port : Nat}

theorem wp_readAddr {n : Nat} {Q : Unit → Conn → Prop} {E : NetErr → Conn → Prop} (hn : 0 < n)
    (hok : ∀ t f, t.length = n + 2 → stream c.feed = t ++ stream f → Q () { c with feed := f })
    (herr : (stream c.feed).length < n + 2 → E .eof { c with feed := [] }) :
    WP (if n > 0 then discard (readFull (n + 2)) else pure ()) Q E c := by
  rw [if_pos hn, discard_eq_bind, WP.bind_iff]
  exact wp_readFull (fun t f hlen hs => hok t f hlen hs) herr

theorem wp_readBoundAddr_fixed {atyp : UInt8} {n : Nat} (hlen : boundAddrLen atyp = pure n)
    (hn : 0 < n) (hbound : ∀ t, Bound atyp t ↔ t.length = n + 2) :
    WP (readBoundAddr atyp)
      (fun _ c' => ∃ t, Bound atyp t ∧ stream c.feed = t ++ stream c'.feed ∧ c'.written = c.written)
      (fun _ c' => (∀ t, Bound atyp t → ¬ t <+: stream c.feed) ∧ c'.written = c.written) c := by
  unfold readBoundAddr
  rw [hlen, WP.bind_iff, WP.pure_iff]
  apply wp_readAddr hn
  · intro t f ht hs
    exact ⟨t, (hbound t).2 ht, hs, rfl⟩
  · intro hshort
    refine ⟨?_, rfl⟩
    intro t ht
    apply not_prefix_of_length_lt
    rw [(hbound t).1 ht]
    exact hshort

theorem wp_readBoundAddr_domain :
    WP (readBoundAddr 0x03)
      (fun _ c' => ∃ t, Bound 0x03 t ∧ stream c.feed = t ++ stream c'.feed ∧ c'.written = c.written)
      (fun _ c' => (∀ t, Bound 0x03 t → ¬ t <+: stream c.feed) ∧ c'.written = c.written) c := by
  unfold readBoundAddr boundAddrLen
  rw [if_neg (by decide), if_pos rfl, WP.bind_iff, WP.bind_iff]
  apply wp_readFull
  · intro lb f hlb hs
    obtain ⟨n, rfl⟩ := List.length_eq_one_iff.1 hlb
    rw [WP.pure_iff]
    change WP (if n.toNat > 0 then _ else _) _ _ _
    by_cases hn : n = 0
    · subst hn
      exact ⟨[0], .domainEmpty, hs, rfl⟩
    · have hpos : 0 < n.toNat := by
        apply Nat.pos_of_ne_zero
        intro h0
        exact hn (UInt8.toNat_inj.1 h0)
      apply wp_readAddr hpos
      · intro t f' hlen hs'
        refine ⟨n :: t, .domain n t hn hlen, ?_, rfl⟩
        rw [hs]
        exact congrArg (n :: ·) hs'
      · intro hshort
        refine ⟨?_, rfl⟩
        intro t ht hpre
        rw [hs] at hpre
        rcases bound_domain_iff.1 ht with rfl | ⟨m, u, -, rfl, hlen⟩
        · exact hn (List.cons_prefix_cons.1 hpre).1.symm
        · obtain ⟨rfl, hpre'⟩ := List.cons_prefix_cons.1 hpre
          exact not_prefix_of_length_lt (by rw [hlen]; exact hshort) hpre'
  · intro hshort
    refine ⟨?_, rfl⟩
    intro t ht
    apply not_prefix_of_length_lt
    rcases bound_domain_iff.1 ht with rfl | ⟨m, u, -, rfl, -⟩
    · exact hshort
    · rw [List.length_cons]
      omega

theorem wp_readBoundAddr (atyp : UInt8) :
    WP (readBoundAddr atyp)
      (fun _ c' => ∃ t, Bound atyp t ∧ stream c.feed = t ++ stream c'.feed ∧ c'.written = c.written)
      (fun _ c' => (∀ t, Bound atyp t → ¬ t <+: stream c.feed) ∧ c'.written = c.written) c := by
  by_cases h1 : atyp = 0x01
  · subst h1
    exact wp_readBoundAddr_fixed rfl (by decide) fun _ => bound_ipv4_iff
  by_cases h3 : atyp = 0x03
  · subst h3
    exact wp_readBoundAddr_domain
  by_cases h4 : atyp = 0x04
  · subst h4
    exact wp_readBoundAddr_fixed rfl (by decide) fun _ => bound_ipv6_iff
  unfold readBoundAddr boundAddrLen
  rw [if_neg h1, if_neg h3, if_neg h4]
  exact ⟨[], .other atyp h1 h3 h4, rfl, rfl⟩

theorem Reply.tail {g rep hdr s : Bytes} (hg : Reply g) (hrep : rep.length = 2) (hhdr : hdr.length = 4)
    (hpre : g <+: rep ++ (hdr ++ s)) : ∃ t, Bound (hdr.getD 3 0) t ∧ t <+: s := by
  obtain ⟨head, t, hhead, rfl, ht⟩ := hg
  obtain ⟨left, hleft⟩ := hpre
  rw [List.append_assoc, ← List.append_assoc rep] at hleft
  have hlen : head.length = (rep ++ hdr).length := by
    rw [List.length_append]
    omega
  obtain ⟨rfl, hs⟩ := List.append_inj hleft hlen
  refine ⟨t, ?_, left, hs⟩
  rwa [List.getD_append_right _ _ _ _ (by omega), hrep] at ht

theorem Reply.not_prefix {g s : Bytes} (h : Reply g) (hs : s.length < 6) : ¬ g <+: s := by
  obtain ⟨head, t, hhead, rfl, -⟩ := h
  intro hpre
  have hle := hpre.length_le
  rw [List.length_append] at hle
  omega

/-- The request gets written: the connection takes two writes, and a method reply
comes between them. -/
def Asks (c : Conn) : Prop := c.Open 2 ∧ 2 ≤ (stream c.feed).length

/-- **What `dialSOCKS5` does.** It returns after it has taken a reply from the
stream, and fails only if there is none or the connection does not hold; the request
is written by then if there is a method reply. -/
theorem wp_dialSOCKS5 :
    WP (dialSOCKS5 host port)
      (fun _ c' => c.Open 2 ∧ (∃ g, Reply g ∧ stream c.feed = g ++ stream c'.feed) ∧
        c'.written = c.written ++ [socks5Greeting, socks5Request host port])
      (fun _ c' => (c.Open 2 → ∀ g, Reply g → ¬ g <+: stream c.feed) ∧
        (Asks c ∧ c'.written = c.written ++ [socks5Greeting, socks5Request host port] ∨
          ¬ Asks c ∧ c'.written <+: c.written ++ [socks5Greeting])) c := by
  unfold dialSOCKS5
  apply wp_dial_write
  swap
  · intro _ hclosed
    have hclosed₂ : ¬ c.Open 2 := by
      intro hopen
      exact hclosed ⟨hopen.1, fun k hk => Nat.le_of_succ_le (hopen.2 k hk)⟩
    exact ⟨fun hopen => absurd hopen hclosed₂,
      .inr ⟨fun hasks => hclosed₂ hasks.1, List.prefix_append _ _⟩⟩
  intro hmade hroom
  rw [WP.bind_iff]
  apply wp_readFull
  swap
  · intro hshort
    rw [Conn.wrote_feed] at hshort
    refine ⟨fun _ g hg => hg.not_prefix (by omega), .inr ⟨?_, List.prefix_refl _⟩⟩
    rintro ⟨-, hreply⟩
    omega
  intro rep f hrep hs
  rw [WP.bind_iff]
  apply wp_write
  swap
  · intro hroom'
    have hclosed : ¬ c.Open 2 := by
      intro hopen
      have h1 := ((Conn.wrote_open (b := socks5Greeting) hroom).2 hopen).2 0 hroom'
      omega
    exact ⟨fun hopen => absurd hopen hclosed,
      .inr ⟨fun hasks => hclosed hasks.1, List.prefix_refl _⟩⟩
  intro hroom'
  have hasks : Asks c := by
    have h1 : Conn.Open { c.wrote socks5Greeting with feed := f } 1 :=
      (Conn.wrote_open (b := []) hroom').1 ⟨hmade.1, fun k _ => Nat.zero_le k⟩
    refine ⟨(Conn.wrote_open (b := socks5Greeting) hroom).1 h1, ?_⟩
    rw [Conn.wrote_feed] at hs
    rw [hs, List.length_append]
    omega
  rw [WP.bind_iff]
  apply wp_readFull
  swap
  · intro hshort
    refine ⟨?_, .inl ⟨hasks, by simp⟩⟩
    intro _ g hg
    apply hg.not_prefix
    rw [Conn.wrote_feed] at hs hshort
    rw [hs, List.length_append, hrep]
    simp only at hshort
    omega
  intro hdr f' hhdr hs'
  rw [Conn.wrote_feed] at hs hs'
  simp only at hs'
  apply (wp_readBoundAddr _).mono
  · rintro _ c' ⟨t, ht, hst, hwritten⟩
    refine ⟨hasks.1, ⟨rep ++ hdr ++ t, ⟨rep ++ hdr, t, ?_, rfl, ?_⟩, ?_⟩, ?_⟩
    · rw [List.length_append]
      omega
    · rwa [List.getD_append_right _ _ _ _ (by omega), hrep]
    · rw [hs, hs', hst]
      simp
    · rw [hwritten]
      simp
  · rintro _ c' ⟨hno, hwritten⟩
    refine ⟨?_, .inl ⟨hasks, by rw [hwritten]; simp⟩⟩
    intro _ g hg hpre
    rw [hs, hs'] at hpre
    obtain ⟨t, ht, hpre'⟩ := hg.tail hrep hhdr hpre
    exact hno t ht hpre'

theorem Bound.unique {atyp : UInt8} {t t' s : Bytes} (h : Bound atyp t) (h' : Bound atyp t')
    (hpre : t <+: s) (hpre' : t' <+: s) : t = t' := by
  have same : ∀ {u u' v : Bytes}, u.length = u'.length → u <+: v → u' <+: v → u = u' := by
    intro u u' v hlen hu hu'
    exact (List.prefix_of_prefix_length_le hu hu' (by omega)).eq_of_length hlen
  by_cases h1 : atyp = 0x01
  · subst h1
    rw [bound_ipv4_iff] at h h'
    exact same (by omega) hpre hpre'
  by_cases h4 : atyp = 0x04
  · subst h4
    rw [bound_ipv6_iff] at h h'
    exact same (by omega) hpre hpre'
  by_cases h3 : atyp = 0x03
  · subst h3
    rw [bound_domain_iff] at h h'
    obtain ⟨v, rfl⟩ := hpre
    rcases h with rfl | ⟨n, u, hn, rfl, hlen⟩
    · rcases h' with rfl | ⟨m, u', hm, rfl, -⟩
      · rfl
      · exact absurd (List.cons_prefix_cons.1 hpre').1 hm
    · rcases h' with rfl | ⟨m, u', -, rfl, hlen'⟩
      · exact absurd (List.cons_prefix_cons.1 hpre').1.symm hn
      · obtain ⟨rfl, -⟩ := List.cons_prefix_cons.1 hpre'
        exact same (by simp only [List.length_cons]; omega) (List.prefix_append _ v) hpre'
  rw [bound_other_iff h1 h3 h4] at h h'
  rw [h, h']

theorem Reply.unique {g g' s : Bytes} (h : Reply g) (h' : Reply g') (hpre : g <+: s)
    (hpre' : g' <+: s) : g = g' := by
  obtain ⟨head, t, hhead, rfl, ht⟩ := h
  obtain ⟨head', t', hhead', rfl, ht'⟩ := h'
  obtain ⟨u, rfl⟩ := hpre
  obtain ⟨u', hs⟩ := hpre'
  rw [List.append_assoc, List.append_assoc] at hs
  obtain ⟨rfl, hs'⟩ := List.append_inj hs (by omega)
  rw [ht.unique ht' (List.prefix_append t u) ⟨u', hs'⟩]

/-- The bytes of a reply that the code would have to look at: the method, version
and reply code, the address type, and the length of a domain name. -/
def Succeeded (g : Bytes) : Prop :=
  g.take 4 = [0x05, 0x00, 0x05, 0x00] ∧
    (g.getD 5 0 = 0x01 ∨ g.getD 5 0 = 0x04 ∨ g.getD 5 0 = 0x03 ∧ g.getD 6 0 ≠ 0)

/-- Where what the code accepts is a grant. -/
theorem Reply.grant_iff {g : Bytes} (h : Reply g) : Grant g ↔ Succeeded g := by
  obtain ⟨head, t, hhead, rfl, ht⟩ := h
  have hfirst : (head.take 3).length = 3 := by rw [List.length_take, hhead]; rfl
  have hlast : (head.drop 3).length = 3 := by rw [List.length_drop, hhead]
  obtain ⟨m, method, v, hfirst⟩ := List.length_eq_three.1 hfirst
  obtain ⟨rep, rsv, atyp, hlast⟩ := List.length_eq_three.1 hlast
  obtain rfl : head = [m, method, v, rep, rsv, atyp] := by
    rw [← List.take_append_drop 3 head, hfirst, hlast]
    rfl
  constructor
  · rintro ⟨rsv', atyp', t', heq, hbound⟩
    simp only [List.cons_append, List.nil_append, List.cons.injEq] at heq
    obtain ⟨rfl, rfl, rfl, rfl, rfl, rfl, rfl⟩ := heq
    refine ⟨rfl, ?_⟩
    cases hbound with
    | ipv4 => exact Or.inl rfl
    | ipv6 => exact Or.inr (Or.inl rfl)
    | domain n u hlen =>
      refine Or.inr (Or.inr ⟨rfl, ?_⟩)
      rintro (rfl : n = 0)
      -- the code takes one byte for an empty name, the grant has a port after it
      cases ht with
      | domainEmpty => cases hlen
      | domain _ _ hn => exact hn rfl
  · rintro ⟨hhead4, hatyp⟩
    simp only [List.cons_append, List.nil_append, List.take_succ_cons, List.take_zero,
      List.cons.injEq, and_true] at hhead4
    obtain ⟨rfl, rfl, rfl, rfl⟩ := hhead4
    refine ⟨rsv, atyp, t, rfl, ?_⟩
    cases ht with
    | ipv4 _ hlen => exact .ipv4 t hlen
    | ipv6 _ hlen => exact .ipv6 t hlen
    | domain n u hn hlen => exact .domain n u hlen
    | domainEmpty =>
      obtain h1 | h4 | ⟨-, h0⟩ := hatyp
      · cases h1
      · cases h4
      · exact absurd rfl h0
    | other _ h1 h3 h4 =>
      obtain h | h | ⟨h, -⟩ := hatyp
      · exact absurd h h1
      · exact absurd h h4
      · exact absurd h h3

/-- **When a returned connection is a granted tunnel.** `dialSOCKS5` returns only
after a granted reply, with the stream at the tunnel's first byte, exactly if
every reply it can take from the stream has the bytes it does not look at. -/
theorem dialSOCKS5_granted_iff (c : Conn) (host : Bytes) (port : Nat) :
    (∀ c', (dialSOCKS5 host port).run c = .ok () c' →
      ∃ g, Grant g ∧ stream c.feed = g ++ stream c'.feed) ↔
    (c.Open 2 → ∀ g, Reply g → g <+: stream c.feed → Succeeded g) := by
  constructor
  · intro hgrant hopen g hg hpre
    cases hr : (dialSOCKS5 host port).run c with
    | error e c' => exact absurd hpre ((wp_dialSOCKS5.error hr).1 hopen g hg)
    | ok _ c' =>
      obtain ⟨-, ⟨g', hg', hs'⟩, -⟩ := wp_dialSOCKS5.ok hr
      obtain ⟨g₀, hg₀, hs₀⟩ := hgrant c' hr
      have hsame : g₀ = g' := List.append_cancel_right (hs₀.symm.trans hs')
      have hone : g = g' := hg.unique hg' hpre ⟨_, hs'.symm⟩
      rw [hone]
      exact hg'.grant_iff.1 (hsame ▸ hg₀)
  · intro hsucc c' hr
    obtain ⟨hopen, ⟨g, hg, hs⟩, -⟩ := wp_dialSOCKS5.ok hr
    exact ⟨g, hg.grant_iff.2 (hsucc hopen g hg ⟨_, hs.symm⟩), hs⟩

/-- The proxy refuses the connection (reply code 5). -/
def refusingProxy : Conn where
  refused := false
  feed := [⟨[0x05, 0x00, 0x05, 0x05, 0x00, 0x01, 0, 0, 0, 0, 0, 0], by decide⟩]
  room := none
  written := []

/-- A refused tunnel is taken for a granted one. -/
theorem dialSOCKS5_takes_refusal :
    ¬ ∀ c', (dialSOCKS5 (ascii "a") 443).run refusingProxy = .ok () c' →
      ∃ g, Grant g ∧ stream refusingProxy.feed = g ++ stream c'.feed := by
  intro hgrant
  obtain ⟨u, hr⟩ := run_of_returns (x := dialSOCKS5 (ascii "a") 443) (s := refusingProxy)
    (by decide +kernel)
  obtain ⟨g, ⟨rsv, atyp, t, rfl, -⟩, hs⟩ := hgrant _ hr
  simp [refusingProxy] at hs

end Accepts

/-! ## The request it writes -/

inductive Addr where
  | ipv4 (a : Bytes)
  | domain (name : Bytes)
  | ipv6 (a : Bytes)
deriving DecidableEq

/-- An address of `n` bytes, the port, and what is left. -/
def decodeAddr (mk : Bytes → Addr) (n : Nat) (b : Bytes) : Option (Addr × Nat × Bytes) :=
  match b.drop n with
  | hi :: lo :: left => some (mk (b.take n), hi.toNat * 256 + lo.toNat, left)
  | _ => none

/-- A CONNECT request by RFC 1928: the address, the port, and what is left. -/
def decodeRequest : Bytes → Option (Addr × Nat × Bytes)
  | 0x05 :: 0x01 :: 0x00 :: 0x01 :: b => decodeAddr .ipv4 4 b
  | 0x05 :: 0x01 :: 0x00 :: 0x03 :: n :: b => decodeAddr .domain n.toNat b
  | 0x05 :: 0x01 :: 0x00 :: 0x04 :: b => decodeAddr .ipv6 16 b
  | _ => none

theorem decodeRequest_socks5Request {host : Bytes} {port : Nat} (hport : port < 65536) :
    decodeRequest (socks5Request host port) = some (.domain host, port, []) ↔ host.length ≤ 255 := by
  have hdec : decodeRequest (socks5Request host port) =
      decodeAddr .domain (host.length % 256)
        (host ++ [UInt8.ofNat (port % 65536 / 256), UInt8.ofNat (port % 256)]) := by
    rw [← UInt8.toNat_ofNat']
    rfl
  rw [hdec]
  constructor
  · intro h
    unfold decodeAddr at h
    split at h
    · simp only [Option.some.injEq, Prod.mk.injEq, Addr.domain.injEq] at h
      have hlen := congrArg List.length h.1
      rw [List.length_take] at hlen
      omega
    · cases h
  · intro hlen
    rw [Nat.mod_eq_of_lt (by omega), decodeAddr, List.drop_left, List.take_left]
    simp only [UInt8.toNat_ofNat', Option.some.injEq, Prod.mk.injEq, true_and, and_true]
    omega

/-- The call fails with no request written, or the request decodes to the host and
the port. -/
def NamesHost (c : Conn) (host : Bytes) (port : Nat) : Prop :=
  (∃ e c', (dialSOCKS5 host port).run c = .error e c' ∧ c'.written <+: c.written ++ [socks5Greeting]) ∨
    ∃ w, (after (dialSOCKS5 host port) c).written = c.written ++ [socks5Greeting, w] ∧
      decodeRequest w = some (.domain host, port, [])

/-- **When the request names the host.** The call fails with no request written, or the
request decodes to the host and the port, exactly if the length of the host fits a
byte or the request is not written. -/
theorem socks5_names_host_iff (c : Conn) (host : Bytes) (port : Nat) (hport : port < 65536) :
    NamesHost c host port ↔ (Asks c → host.length ≤ 255) := by
  unfold NamesHost
  rw [← decodeRequest_socks5Request hport]
  cases hr : (dialSOCKS5 host port).run c with
  | ok _ c' =>
    obtain ⟨hopen, ⟨g, ⟨head, t, hhead, rfl, -⟩, hs⟩, hwritten⟩ := wp_dialSOCKS5.ok hr
    have hasks : Asks c := by
      refine ⟨hopen, ?_⟩
      rw [hs]
      simp only [List.length_append]
      omega
    rw [after_of_ok hr, hwritten]
    simp [hasks]
  | error e c' =>
    obtain ⟨-, ⟨hasks, hwritten⟩ | ⟨hasks, hwritten⟩⟩ := wp_dialSOCKS5.error hr
    · rw [after_of_error hr]
      simp [hasks, hwritten]
    · simp [hasks, hwritten]

/-- A ClientHello with an empty session id, one cipher suite, one compression
method and the server name `name`, for names of at most 400 bytes. -/
def clientHello (name : Bytes) : Bytes :=
  let size (n : Nat) : Bytes := [UInt8.ofNat (n / 256), UInt8.ofNat (n % 256)]
  [0x16, 0x03, 0x01] ++ size (name.length + 56) ++ [0x01, 0x00] ++ size (name.length + 52) ++
    [0x03, 0x03] ++ List.replicate 32 0 ++ [0x00] ++ [0x00, 0x02, 0x13, 0x01] ++ [0x01, 0x00] ++
    size (name.length + 9) ++ [0x00, 0x00] ++ size (name.length + 5) ++ size (name.length + 3) ++
    [0x00] ++ size name.length ++ name

def grantingProxy : Conn where
  refused := false
  feed := [⟨[0x05, 0x00, 0x05, 0x00, 0x00, 0x01, 0, 0, 0, 0, 0, 0], by decide⟩]
  room := none
  written := []

theorem socks5_names_host :
    (ascii "a.example").length ≤ 255 ∧ NamesHost grantingProxy (ascii "a.example") 443 :=
  have hlen : (ascii "a.example").length ≤ 255 := by decide
  ⟨hlen, (socks5_names_host_iff grantingProxy (ascii "a.example") 443 (by decide)).2 fun _ => hlen⟩

/-- A server name of 256 bytes: the request announces an empty one. -/
theorem socks5_misnames_host :
    ∃ host, parseSNI id (clientHello (List.replicate 256 0x61)) = .ok host ∧
      ¬ NamesHost grantingProxy host 443 := by
  refine ⟨List.replicate 256 0x61, by decide +kernel, ?_⟩
  obtain ⟨u, hr⟩ := run_of_returns (x := dialSOCKS5 (List.replicate 256 0x61) 443)
    (s := grantingProxy) (by decide +kernel)
  obtain ⟨-, -, hwritten⟩ := wp_dialSOCKS5.ok hr
  rintro (⟨e, c', herr, -⟩ | ⟨w, hw, hdec⟩)
  · rw [herr] at hr
    cases hr
  · have hsame := List.append_cancel_left (hw.symm.trans hwritten)
    obtain rfl : w = socks5Request (List.replicate 256 0x61) 443 := (List.cons.inj (List.cons.inj hsame).2).1
    rw [decodeRequest_socks5Request (by decide), List.length_replicate] at hdec
    omega

end Dockerset.GeoSni

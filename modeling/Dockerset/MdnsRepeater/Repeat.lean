import Dockerset.MdnsRepeater.Options

/-!
# Repeating a datagram

One socket receives what is sent to the group on any of the interfaces; for each
interface there is a socket to send with. A datagram is repeated on every interface
whose network its sender is not in, unless the sender is the repeater itself, is in
none of the networks, or is kept out by the lists of subnets.
-/

namespace Dockerset.MdnsRepeater
open Clib Go Logic

/-- `struct if_sock`. -/
structure IfSock where
  ifname : CString
  sockfd : Nat
  addr : InAddr
  mask : InAddr
  net : InAddr
deriving DecidableEq

/-- The address is in the network of the interface. -/
def IfSock.onNet (k : IfSock) (a : InAddr) : Bool := a &&& k.mask == k.net

/-- What the program finds on the machine: whether it gets its receiving socket, and of
each interface for which it gets a sending socket the mask and the address that the
`ioctl` calls return, if they do. -/
structure Machine where
  recvSock : Bool
  sendSock : CString → Option (Option InAddr × Option InAddr)
  users : CString → Bool

/-- The globals of the program in its main loop. -/
structure Config where
  socks : List IfSock
  blacklisted : List Subnet
  whitelisted : List Subnet
deriving DecidableEq

/-! ## `main`, up to its loop -/

def maxSocks : Nat := 16

/-- Without an answer the address and the mask stay zero. -/
def createSendSock (h : Machine) (ifname : CString) (sockfd : Nat) : Option IfSock :=
  (h.sendSock (ifname.take 16)).map fun found =>
    let mask := found.1.getD 0
    let addr := found.2.getD 0
    ⟨ifname, sockfd, addr, mask, addr &&& mask⟩

def createSocks (h : Machine) : List CString → List IfSock → Except Exit (List IfSock)
  | [], socks => .ok socks
  | name :: names, socks =>
    if maxSocks ≤ socks.length then .error ⟨2, ascii "too many sockets (maximum is 16)"⟩
    else
      match createSendSock h name socks.length with
      | none => .error ⟨1, ascii "unable to create socket for interface " ++ name⟩
      | some k => createSocks h names (socks ++ [k])

/-- `main` with the options and the names of the interfaces. -/
def start (u : Undefined) (h : Machine) (opts : List Opt) (names : List CString) : Except Exit Config := do
  let o ← parseOpts u h.users opts
  if names.length ≤ 1 then .error ⟨2, ascii "error: at least 2 interfaces must be specified"⟩
  else if !h.recvSock then .error ⟨1, ascii "unable to create server socket"⟩
  else do
    let socks ← createSocks h names []
    .ok ⟨socks, o.blacklisted, o.whitelisted⟩

/-! ## The body of the loop -/

/-- The first loop over the sockets: `discard` and `our_net`. -/
def scanSocks (a : InAddr) : List IfSock → Bool → Bool × Bool
  | [], ourNet => (false, ourNet)
  | k :: socks, ourNet =>
    let ourNet := ourNet || k.onNet a
    if a == k.addr then (true, ourNet) else scanSocks a socks ourNet

/-- The lists let the sender through. -/
def Config.admits (c : Config) (a : InAddr) : Bool :=
  if c.whitelisted.length ≠ 0 then c.whitelisted.any fun s => s.covers a
  else !c.blacklisted.any fun s => s.covers a

/-- The sockets on which a datagram from `a` is repeated, in the order of the calls of
`send_packet`. -/
def repeatTo (c : Config) (a : InAddr) : List IfSock :=
  let scan := scanSocks a c.socks false
  if scan.1 || !scan.2 then []
  else if c.admits a then c.socks.filter fun k => !k.onNet a
  else []

section Loop

variable {c : Config} {a : InAddr} {k : IfSock} {socks : List IfSock} {ourNet : Bool}

theorem scanSocks_discard : (scanSocks a socks ourNet).1 = true ↔ ∃ k ∈ socks, a = k.addr := by
  induction socks generalizing ourNet with
  | nil => simp [scanSocks]
  | cons k socks ih =>
    simp only [scanSocks, List.mem_cons, exists_eq_or_imp]
    by_cases h : a = k.addr
    · simp [h]
    · simp [h, ih]

theorem scanSocks_ourNet (h : ∀ k ∈ socks, a ≠ k.addr) :
    (scanSocks a socks ourNet).2 = true ↔ ourNet = true ∨ ∃ k ∈ socks, k.onNet a = true := by
  induction socks generalizing ourNet with
  | nil => simp [scanSocks]
  | cons k socks ih =>
    have hk : (a == k.addr) = false := beq_eq_false_iff_ne.2 (h k List.mem_cons_self)
    have hrest : (scanSocks a socks (ourNet || k.onNet a)).2 = true ↔
        (ourNet || k.onNet a) = true ∨ ∃ j ∈ socks, j.onNet a = true :=
      ih fun j hj => h j (List.mem_cons_of_mem _ hj)
    simp only [scanSocks, hk, Bool.false_eq_true, if_false, hrest, List.mem_cons, exists_eq_or_imp,
      Bool.or_eq_true, or_assoc]

/-- **Where a datagram is repeated.** -/
theorem mem_repeatTo : k ∈ repeatTo c a ↔ k ∈ c.socks ∧ (∀ j ∈ c.socks, a ≠ j.addr) ∧
    (∃ j ∈ c.socks, j.onNet a = true) ∧ k.onNet a = false ∧ c.admits a = true := by
  unfold repeatTo
  by_cases hown : ∃ j ∈ c.socks, a = j.addr
  · have hd : (scanSocks a c.socks false).1 = true := scanSocks_discard.2 hown
    simp only [hd, Bool.true_or, if_true, List.not_mem_nil, false_iff]
    rintro ⟨-, hno, -⟩
    obtain ⟨j, hj, he⟩ := hown
    exact hno j hj he
  · have hd : (scanSocks a c.socks false).1 = false :=
      Bool.eq_false_iff.2 fun h => hown (scanSocks_discard.1 h)
    push Not at hown
    have hnet : (scanSocks a c.socks false).2 = true ↔ false = true ∨ ∃ k ∈ c.socks, k.onNet a = true :=
      scanSocks_ourNet hown
    simp only [Bool.false_eq_true, false_or] at hnet
    simp only [hd, Bool.false_or]
    cases h2 : (scanSocks a c.socks false).2 with
    | false =>
      rw [h2] at hnet
      simp only [Bool.not_false, if_true, List.not_mem_nil, false_iff]
      rintro ⟨-, -, hin, -⟩
      exact absurd (hnet.2 hin) (by simp)
    | true =>
      have hin := hnet.1 h2
      cases c.admits a with
      | false => simp
      | true =>
        simp only [Bool.not_true, Bool.false_eq_true, if_false, if_true, List.mem_filter,
          Bool.not_eq_true', and_true]
        exact ⟨fun hk => ⟨hk.1, hown, hin, hk.2⟩, fun hk => ⟨hk.1, hk.2.2.2⟩⟩

theorem repeatTo_sublist (c : Config) (a : InAddr) : (repeatTo c a).Sublist c.socks := by
  unfold repeatTo
  dsimp only
  split
  · exact List.nil_sublist _
  · split
    · exact List.filter_sublist
    · exact List.nil_sublist _

end Loop

section Start

variable {u : Undefined} {h : Machine} {opts : List Opt} {names : List CString} {c : Config}
  {socks socks' : List IfSock}

theorem createSendSock_ok {name : CString} {fd : Nat} {k : IfSock} (hk : createSendSock h name fd = some k) :
    k.ifname = name ∧ k.sockfd = fd ∧ k.net = k.addr &&& k.mask := by
  obtain ⟨found, -, rfl⟩ := Option.map_eq_some_iff.1 hk
  exact ⟨rfl, rfl, rfl⟩

/-- The sockets are those of the interfaces, in their order, each with the network that its
own address is in. -/
structure Opened (names : List CString) (socks : List IfSock) : Prop where
  fds : socks.map IfSock.sockfd = List.range names.length
  names : socks.map IfSock.ifname = names
  nets : ∀ k ∈ socks, k.net = k.addr &&& k.mask
  bound : socks.length ≤ maxSocks

theorem createSocks_ok {done : List CString} (hs : createSocks h names socks = .ok socks')
    (hd : Opened done socks) : Opened (done ++ names) socks' := by
  induction names generalizing socks done with
  | nil =>
    cases hs
    rwa [List.append_nil]
  | cons name names ih =>
    unfold createSocks at hs
    split at hs
    · cases hs
    · next hlen =>
      cases hk : createSendSock h name socks.length with
      | none =>
        rw [hk] at hs
        cases hs
      | some k =>
        rw [hk] at hs
        obtain ⟨hname, hfd, hnet⟩ := createSendSock_ok hk
        have hdlen : socks.length = done.length := by rw [← hd.names, List.length_map]
        have hnext : Opened (done ++ [name]) (socks ++ [k]) := by
          refine ⟨?_, ?_, ?_, ?_⟩
          · rw [List.map_append, hd.fds, List.map_singleton, hfd, hdlen, List.length_append,
              List.length_singleton, List.range_succ]
          · rw [List.map_append, hd.names, List.map_singleton, hname]
          · intro j hj
            rcases List.mem_append.1 hj with hj | hj
            · exact hd.nets j hj
            · rwa [List.mem_singleton.1 hj]
          · rw [List.length_append, List.length_singleton]
            omega
        have := ih hs hnext
        rwa [List.append_assoc, List.singleton_append] at this

theorem start_ok (hc : start u h opts names = .ok c) :
    2 ≤ names.length ∧ Opened names c.socks ∧
      ∃ o, Read u opts o ∧ c.blacklisted = o.blacklisted ∧ c.whitelisted = o.whitelisted := by
  obtain ⟨o, ho, hc⟩ := except_bind_ok hc
  split at hc
  · cases hc
  · next hlen =>
    split at hc
    · cases hc
    · obtain ⟨socks, hs, hc⟩ := except_bind_ok hc
      cases hc
      have hempty : Opened [] [] := ⟨rfl, rfl, by simp, by simp⟩
      have hopen := createSocks_ok hs hempty
      exact ⟨by omega, hopen, o, parseOpts_ok ho, rfl, rfl⟩

end Start

/-! ## What the command line says -/

/-- The address begins with as many bits of the written one as the written length says. -/
def Within (u : Undefined) (text : CString) (a : InAddr) : Prop :=
  ∃ (q : Quad) (r : CString), text = q.text ++ 0x2f :: r ∧ 0x2f ∉ r ∧
    ∀ j < (atoi u.overflow r).toNat, (ntohl a).getMsbD j = (ntohl q.inAddr).getMsbD j

/-- A list of subnets as it is written says: with `-w`, only from there; without, from
anywhere but where `-b` says. -/
def Admitted (u : Undefined) (opts : List Opt) (a : InAddr) : Prop :=
  (whitelists opts ≠ [] ∧ ∃ text ∈ whitelists opts, Within u text a) ∨
    (whitelists opts = [] ∧ ∀ text ∈ blacklists opts, ¬ Within u text a)

/-- No length is written as zero. -/
def LengthsPositive (u : Undefined) (opts : List Opt) : Prop :=
  ∀ text ∈ blacklists opts ++ whitelists opts, ∀ q r, text = Quad.text q ++ 0x2f :: r →
    atoi u.overflow r ≠ 0

section Written

variable {u : Undefined} {opts : List Opt} {o : Options} {a : InAddr} {c : Config}

theorem last_slash_inj {l l' r r' : CString} (hr : 0x2f ∉ r) (hr' : 0x2f ∉ r')
    (h : l ++ 0x2f :: r = l' ++ 0x2f :: r') : l = l' ∧ r = r' := by
  have hlen : l.length = l'.length := by
    have hd := findDelim_append (l := l) hr 0 0
    rw [h, findDelim_append hr', Nat.zero_add, Nat.zero_add] at hd
    exact hd.symm
  obtain ⟨hl, htail⟩ := List.append_inj h hlen
  exact ⟨hl, (List.cons.inj htail).2⟩

theorem covers_iff_within {text : CString} {s : Subnet} (hs : parse u text = .ok s)
    (hpos : ∀ q r, text = Quad.text q ++ 0x2f :: r → atoi u.overflow r ≠ 0) :
    s.covers a = true ↔ Within u text a := by
  obtain ⟨q, r, rfl, hr, h0, h32, rfl⟩ := parse_eq_ok.1 hs
  have hne := hpos q r rfl
  rw [covers_subnet q (by omega) (by omega)]
  constructor
  · exact fun h => ⟨q, r, rfl, hr, h⟩
  · rintro ⟨q', r', he, hr', h⟩
    obtain ⟨htext, rfl⟩ := last_slash_inj hr hr' he
    have hq : some q = some q' := by rw [← inetPton_text q, htext, inetPton_text]
    cases hq
    exact h

/-- Some subnet of a list covers the address if the address is within some text. -/
theorem any_covers_iff {texts : List CString} {l : List Subnet}
    (h : List.Forall₂ (fun arg s => parse u arg = .ok s) texts l)
    (hpos : ∀ text ∈ texts, ∀ q r, text = Quad.text q ++ 0x2f :: r → atoi u.overflow r ≠ 0) :
    (l.any fun s => s.covers a) = true ↔ ∃ text ∈ texts, Within u text a := by
  induction h with
  | nil => simp
  | cons hs _ ih =>
    rw [List.any_cons, Bool.or_eq_true, covers_iff_within hs (hpos _ List.mem_cons_self),
      ih fun text ht => hpos text (List.mem_cons_of_mem _ ht)]
    simp only [List.mem_cons, exists_eq_or_imp]

theorem admits_iff (hread : Read u opts o) (hb : c.blacklisted = o.blacklisted)
    (hw : c.whitelisted = o.whitelisted) (hpos : LengthsPositive u opts) :
    c.admits a = true ↔ Admitted u opts a := by
  have hblack := any_covers_iff (a := a) hread.blacklisted fun text ht =>
    hpos text (List.mem_append_left _ ht)
  have hwhite := any_covers_iff (a := a) hread.whitelisted fun text ht =>
    hpos text (List.mem_append_right _ ht)
  have hlen := hread.whitelisted.length_eq
  unfold Config.admits Admitted
  rw [hb, hw, ← hlen, ← hwhite]
  by_cases hnone : whitelists opts = []
  · rw [if_neg (by simp [hnone]), Bool.not_eq_true', Bool.eq_false_iff, ne_eq, hblack]
    simp [hnone]
  · rw [if_pos (by simpa using hnone)]
    simp [hnone]

/-- **The repeater does what its command line says.** It has a socket for each of the
two to sixteen interfaces, and repeats a datagram at most once on each: on those whose
network the sender is not in, if the sender is in the network of another interface, is not
the repeater, and the subnets as they are written let it through. -/
theorem repeats_as_written {h : Machine} {names : List CString} (hc : start u h opts names = .ok c)
    (hpos : LengthsPositive u opts) :
    c.socks.map IfSock.ifname = names ∧ 2 ≤ names.length ∧ names.length ≤ maxSocks ∧
    ∀ a, (repeatTo c a).Sublist c.socks ∧ ∀ k, k ∈ repeatTo c a ↔
      k ∈ c.socks ∧ (∀ j ∈ c.socks, a ≠ j.addr) ∧ (∃ j ∈ c.socks, j.onNet a = true) ∧
        k.onNet a = false ∧ Admitted u opts a := by
  obtain ⟨htwo, hopen, o, hread, hb, hw⟩ := start_ok hc
  have hlen : names.length = c.socks.length := by rw [← hopen.names, List.length_map]
  refine ⟨hopen.names, htwo, hlen ▸ hopen.bound, fun a => ⟨repeatTo_sublist c a, fun k => ?_⟩⟩
  rw [mem_repeatTo, admits_iff hread hb hw hpos]

end Written

/-- Two interfaces, `10.0.0.1/8` and `192.168.1.1/24`. -/
def twoPorts : Machine where
  recvSock := true
  sendSock name :=
    if name = ascii "eth0" then some (some (Quad.inAddr ⟨255, 0, 0, 0⟩), some (Quad.inAddr ⟨10, 0, 0, 1⟩))
    else if name = ascii "eth1" then
      some (some (Quad.inAddr ⟨255, 255, 255, 0⟩), some (Quad.inAddr ⟨192, 168, 1, 1⟩))
    else none
  users _ := false

def gcc : Undefined := ⟨fun _ => 0, id⟩

/-- Only what the phones in `10.7.0.0/16` send is repeated, on the other interface. -/
theorem repeats_as_written_phones :
    ∃ c, start gcc twoPorts [.whitelist (ascii "10.7.0.0/16")] [ascii "eth0", ascii "eth1"] = .ok c ∧
      LengthsPositive gcc [.whitelist (ascii "10.7.0.0/16")] ∧
      (∃ k ∈ repeatTo c (Quad.inAddr ⟨10, 7, 0, 5⟩), k.ifname = ascii "eth1") ∧
      Admitted gcc [.whitelist (ascii "10.7.0.0/16")] (Quad.inAddr ⟨10, 7, 0, 5⟩) := by
  have hstart : (start gcc twoPorts [.whitelist (ascii "10.7.0.0/16")]
      [ascii "eth0", ascii "eth1"]).toOption.isSome = true := by decide +kernel
  cases hc : start gcc twoPorts [.whitelist (ascii "10.7.0.0/16")] [ascii "eth0", ascii "eth1"] with
  | error e =>
    rw [hc] at hstart
    cases hstart
  | ok c =>
    have htext : ascii "10.7.0.0/16" = Quad.text ⟨10, 7, 0, 0⟩ ++ 0x2f :: ascii "16" := by decide +kernel
    have hpos : LengthsPositive gcc [.whitelist (ascii "10.7.0.0/16")] := by
      intro text ht q r he
      have hone : text = ascii "10.7.0.0/16" := by simpa [blacklists, whitelists] using ht
      by_cases hr : 0x2f ∈ r
      · have hcount : (ascii "10.7.0.0/16").count 0x2f = 1 := by decide +kernel
        rw [← hone, he, List.count_append, List.count_cons_self] at hcount
        have := List.count_pos_iff.2 hr
        omega
      · rw [hone, htext] at he
        obtain ⟨-, rfl⟩ := last_slash_inj (by decide +kernel) hr he
        decide +kernel
    have hsome : ∃ k ∈ repeatTo c (Quad.inAddr ⟨10, 7, 0, 5⟩), k.ifname = ascii "eth1" := by
      have hany : ((start gcc twoPorts [.whitelist (ascii "10.7.0.0/16")]
          [ascii "eth0", ascii "eth1"]).toOption.any fun c =>
            (repeatTo c (Quad.inAddr ⟨10, 7, 0, 5⟩)).any fun k => k.ifname == ascii "eth1") = true := by
        decide +kernel
      rw [hc] at hany
      obtain ⟨k, hk, hname⟩ := List.any_eq_true.1 hany
      exact ⟨k, hk, by simpa using hname⟩
    refine ⟨c, rfl, hpos, hsome, ?_⟩
    obtain ⟨k, hk, -⟩ := hsome
    exact ((((repeats_as_written hc hpos).2.2.2 _).2 k).1 hk).2.2.2.2

end Dockerset.MdnsRepeater

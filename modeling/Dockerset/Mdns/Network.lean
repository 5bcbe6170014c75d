import Dockerset.Logic.Runs
import Dockerset.Mdns.Serve

/-!
# The daemon, and many of them on one network

`main` reads the name of the host and starts a listener for each family on each
interface. Multicast brings a datagram to all of them, and `answers_once` says that at most
one answers. On the network there are clients and any number of such daemons, and datagrams
are lost, doubled and reordered; `no_feedback` says that the daemons never answer each
other, whatever happens.
-/

namespace Dockerset.Mdns
open Go Logic

/-! ## Which interfaces are served -/

structure Interface where
  name : Bytes
  up : Bool
  loopback : Bool
  multicast : Bool
deriving DecidableEq

/-- `parseInterfaceAllowList(v)`; the list stands for the set. -/
def parseInterfaceAllowList (v : Bytes) : Option (List Bytes) :=
  if trimSpaceBytes v = [] then none
  else
    let allow := (((trimSpaceBytes v).splitOn 0x2c).map trimSpaceBytes).filter fun name => !name.isEmpty
    if allow.length = 0 then none else some allow

inductive RunError where
  | interfaces
  /-- One of the names; which one depends on the order of the map. -/
  | notFound (names : List Bytes)
  | noInterface
  | noListener
deriving DecidableEq

/-- The name passes the allow list. -/
def allowed (allow : Option (List Bytes)) (name : Bytes) : Bool :=
  match allow with
  | none => true
  | some names => names.contains name

/-- The loop of `selectInterfaces`: what it selects, and the allowed names it has seen. -/
def selectLoop (allow : Option (List Bytes)) (selected : List Interface) (seenAllowed : List Bytes) :
    List Interface → List Interface × List Bytes
  | [] => (selected, seenAllowed)
  | iface :: ifaces =>
    if !allowed allow iface.name then selectLoop allow selected seenAllowed ifaces
    else
      let seenAllowed := if allow.isSome then iface.name :: seenAllowed else seenAllowed
      if !iface.up then selectLoop allow selected seenAllowed ifaces
      else if iface.loopback then selectLoop allow selected seenAllowed ifaces
      else if !iface.multicast then selectLoop allow selected seenAllowed ifaces
      else selectLoop allow (selected ++ [iface]) seenAllowed ifaces

/-- `selectInterfaces(allow)`, with what `net.Interfaces()` returns. -/
def selectInterfaces (allow : Option (List Bytes)) (ifaces : Option (List Interface)) :
    Except RunError (List Interface) :=
  match ifaces with
  | none => .error .interfaces
  | some ifaces =>
    let (selected, seenAllowed) := selectLoop allow [] [] ifaces
    match (allow.getD []).filter fun name => !seenAllowed.contains name with
    | [] => if selected.length = 0 then .error .noInterface else .ok selected
    | missing => .error (.notFound missing)

/-! ## Starting -/

def group4 : UDPAddr := ⟨v4InV6Prefix ++ [224, 0, 0, 251], 5353⟩

def group6 : UDPAddr := ⟨[0xff, 0x02, 0, 0, 0, 0, 0, 0, 0, 0, 0, 0, 0, 0, 0, 0xfb], 5353⟩

/-- The flags of the command line. -/
structure Flags where
  hostOverride : Bytes
  ipv4Only : Bool
  ifaceSelector : Bytes

/-- What the daemon finds when it starts. `listens` says whether `ListenMulticastUDP` works
on the interface, for IPv4 and for IPv6. -/
structure Host where
  hostnameFile : Option Bytes
  interfaces : Option (List Interface)
  listens : Interface → Bool → Bool

/-- The listeners that `run` starts on an interface. -/
def listenersOn (hostname : Bytes) (ipv4Only : Bool) (listens : Interface → Bool → Bool)
    (iface : Interface) : List (Interface × Listener) :=
  (if listens iface false then [(iface, { group := group4, hostname, ipv6 := false })] else []) ++
  (if ipv4Only then []
    else if listens iface true then [(iface, { group := group6, hostname, ipv6 := true })] else [])

/-- `run(hostname, ipv4Only, ifaceSelector)`, up to where it waits for a signal. -/
def run (hostname : Bytes) (ipv4Only : Bool) (ifaceSelector : Bytes) (host : Host) :
    Except RunError (List (Interface × Listener)) := do
  let ifaces ← selectInterfaces (parseInterfaceAllowList ifaceSelector) host.interfaces
  let started := ifaces.flatMap (listenersOn hostname ipv4Only host.listens)
  if started.length = 0 then .error .noListener else .ok started

inductive StartError where
  | readHostname
  | hostname (e : HostnameError)
  | run (e : RunError)
deriving DecidableEq

section

variable (lower : Char → Char)

/-- `readHostnameFromFile(path)`: the first line. -/
def readHostnameFromFile (file : Option Bytes) : Except StartError Bytes :=
  match file with
  | none => .error .readHostname
  | some b => (normalizeHostname lower (b.takeWhile fun c => c != 0x0a)).mapError .hostname

/-- The name that `main` loads. -/
def loadHostname (flags : Flags) (host : Host) : Except StartError Bytes :=
  if flags.hostOverride ≠ [] then (normalizeHostname lower flags.hostOverride).mapError .hostname
  else readHostnameFromFile lower host.hostnameFile

/-- `main`. -/
def main (flags : Flags) (host : Host) : Except StartError (List (Interface × Listener)) := do
  let hostname ← loadHostname lower flags host
  (run hostname flags.ipv4Only flags.ifaceSelector host).mapError .run

/-- All listeners get the datagram. -/
def deliverAll (started : List (Interface × Listener)) (readings : Interface → Readings) (d : Datagram) :
    Except Panic (List (UDPAddr × Bytes)) := do
  let sends ← started.mapM fun s => serveOne lower s.2 (readings s.1) d
  return sends.flatten

end

/-! ## What was started -/

/-- The interface is one that `selectInterfaces` takes. -/
def selects (allow : Option (List Bytes)) (iface : Interface) : Bool :=
  allowed allow iface.name && iface.up && !iface.loopback && iface.multicast

theorem selectLoop_eq (allow : Option (List Bytes)) (ifaces selected : List Interface)
    (seenAllowed : List Bytes) :
    (selectLoop allow selected seenAllowed ifaces).1 = selected ++ ifaces.filter (selects allow) := by
  induction ifaces generalizing selected seenAllowed with
  | nil => simp [selectLoop]
  | cons iface ifaces ih =>
    unfold selectLoop
    dsimp only
    cases hallowed : allowed allow iface.name <;> cases hup : iface.up <;>
      cases hloop : iface.loopback <;> cases hmulti : iface.multicast <;>
      simp [ih, selects, hallowed, hup, hloop, hmulti]

theorem selectInterfaces_ok {allow : Option (List Bytes)} {ifaces : Option (List Interface)}
    {selected : List Interface} (h : selectInterfaces allow ifaces = .ok selected) :
    ∃ all, ifaces = some all ∧ selected = all.filter (selects allow) := by
  unfold selectInterfaces at h
  cases ifaces with
  | none => cases h
  | some all =>
    dsimp only at h
    split at h
    · split at h
      · cases h
      · cases h
        exact ⟨all, rfl, selectLoop_eq allow all [] []⟩
    · cases h

theorem mapError_ok {ε ε' α : Type} {f : ε → ε'} {x : Except ε α} {a : α} (h : x.mapError f = .ok a) :
    x = .ok a := by
  cases x with
  | error e => cases h
  | ok b =>
    cases h
    rfl

section

variable {lower : Char → Char} {flags : Flags} {started : List (Interface × Listener)}
  {log : List Event}

theorem loadHostname_ok {host : Host} {hostname : Bytes}
    (h : loadHostname lower flags host = .ok hostname) : ∃ v, normalizeHostname lower v = .ok hostname := by
  unfold loadHostname readHostnameFromFile at h
  split at h
  · exact ⟨_, mapError_ok h⟩
  · split at h
    · cases h
    · exact ⟨_, mapError_ok h⟩

theorem main_ok {host : Host} (h : main lower flags host = .ok started) :
    ∃ v hostname all, normalizeHostname lower v = .ok hostname ∧ host.interfaces = some all ∧
      started = (all.filter (selects (parseInterfaceAllowList flags.ifaceSelector))).flatMap
        (listenersOn hostname flags.ipv4Only host.listens) := by
  obtain ⟨hostname, hname, hrun⟩ := except_bind_ok h
  obtain ⟨v, hv⟩ := loadHostname_ok hname
  obtain ⟨selected, hselect, hstarted⟩ := except_bind_ok (mapError_ok hrun)
  obtain ⟨all, hall, rfl⟩ := selectInterfaces_ok hselect
  dsimp only at hstarted
  split at hstarted
  · cases hstarted
  · cases hstarted
    exact ⟨v, hostname, all, hv, hall, rfl⟩

theorem mem_listenersOn {hostname : Bytes} {ipv4Only : Bool} {listens : Interface → Bool → Bool}
    {iface : Interface} {s : Interface × Listener} (h : s ∈ listenersOn hostname ipv4Only listens iface) :
    s.1 = iface ∧ s.2.hostname = hostname := by
  unfold listenersOn at h
  rcases List.mem_append.1 h with h | h
  · split at h
    · cases List.mem_singleton.1 h
      exact ⟨rfl, rfl⟩
    · cases h
  · split at h
    · cases h
    · split at h
      · cases List.mem_singleton.1 h
        exact ⟨rfl, rfl⟩
      · cases h

/-! ## One answer from a host -/

def networks (addrs : Option (List Addr)) : List IPNet :=
  (addrs.getD []).filterMap fun addr =>
    match addr with
    | .ipNet net => some net
    | _ => none

theorem network_of_source {addrs : Option (List Addr)} {srcIP : IP} {ipv6 : Bool}
    (h : sourceIPMatchesInterface addrs srcIP ipv6 = true) :
    srcIP ≠ [] ∧ srcIP.to4.isNone = ipv6 ∧ ∃ net ∈ networks addrs, net.contains srcIP = true := by
  unfold sourceIPMatchesInterface at h
  split at h
  · cases h
  · next hsrc =>
    refine ⟨hsrc, ?_⟩
    cases addrs with
    | none => cases h
    | some addrs =>
      obtain ⟨addr, hmem, haddr⟩ := List.any_eq_true.1 h
      cases addr with
      | ipAddr ip => cases haddr
      | other => cases haddr
      | ipNet net =>
        have hnet : net ∈ networks (some addrs) := List.mem_filterMap.2 ⟨_, hmem, rfl⟩
        unfold sourceInAddr at haddr
        dsimp only at haddr
        cases ipv6 with
        | true =>
          simp only [if_true, Bool.and_eq_true] at haddr
          exact ⟨haddr.1, net, hnet, haddr.2.2⟩
        | false =>
          simp only [Bool.false_eq_true, if_false, Bool.and_eq_true] at haddr
          obtain ⟨a, ha⟩ := Option.isSome_iff_exists.1 haddr.1
          refine ⟨by rw [ha]; rfl, net, hnet, ?_⟩
          -- `Contains` brings its argument to four bytes itself
          have hshort : net.contains a = net.contains srcIP := by
            unfold IPNet.contains
            rw [ha, IP.to4_of_length (IP.length_to4 ha)]
            rfl
          rw [← hshort, ← haddr.2.2, ha]
          rfl

theorem overlap_of_wanted {l l' : Listener} {readings readings' : Readings} {d : Datagram}
    {hdr hdr' : DnsHeader} (hw : Wanted lower l readings d hdr) (hw' : Wanted lower l' readings' d hdr') :
    l.ipv6 = l'.ipv6 ∧ ∃ net ∈ networks readings.atSource, ∃ net' ∈ networks readings'.atSource,
      net.overlap net' = true := by
  obtain ⟨hsrc, hfamily, net, hnet, hin⟩ := network_of_source hw.source
  obtain ⟨-, hfamily', net', hnet', hin'⟩ := network_of_source hw'.source
  exact ⟨hfamily.symm.trans hfamily', net, hnet, net', hnet', IPNet.overlap_of_contains hsrc hin hin'⟩

/-- An interface that the daemon serves. -/
structure Served (flags : Flags) (iface : Interface) : Prop where
  up : iface.up = true
  notLoopback : iface.loopback = false
  multicast : iface.multicast = true
  allowed : allowed (parseInterfaceAllowList flags.ifaceSelector) iface.name = true

theorem served_of_selects {iface : Interface}
    (h : selects (parseInterfaceAllowList flags.ifaceSelector) iface = true) : Served flags iface := by
  simp only [selects, Bool.and_eq_true, Bool.not_eq_true'] at h
  exact ⟨h.1.1.2, h.1.2, h.2, h.1.1.1⟩

/-- The outcome of a datagram that no two listeners want to answer. -/
theorem deliverAll_spec {v hostname : Bytes} (hh : normalizeHostname lower v = .ok hostname)
    {readings : Interface → Readings} {d : Datagram}
    (hname : ∀ s ∈ started, s.2.hostname = hostname)
    (hone : started.Pairwise fun s s' => ∀ hdr hdr', Wanted lower s.2 (readings s.1) d hdr →
      ¬ Wanted lower s'.2 (readings s'.1) d hdr') :
    ∃ sends, deliverAll lower started readings d = .ok sends ∧
      ((sends = [] ∧ ∀ s ∈ started, ∀ hdr, ¬ Wanted lower s.2 (readings s.1) d hdr) ∨
      ∃ s ∈ started, ∃ hdr resp, Wanted lower s.2 (readings s.1) d hdr ∧
        sends = [(d.src, resp), (s.2.group, resp)] ∧
        Answered lower hostname hdr.id s.2.rrType (ifaceUsableIPs (readings s.1).atAnswer s.2.ipv6) resp) := by
  induction started with
  | nil => exact ⟨[], rfl, .inl ⟨rfl, by simp⟩⟩
  | cons s started ih =>
    obtain ⟨hfirst, hrest⟩ := List.pairwise_cons.1 hone
    obtain ⟨hnameFirst, hnameRest⟩ := List.forall_mem_cons.1 hname
    obtain ⟨sends, hdeliver, hsends⟩ := ih hnameRest hrest
    obtain ⟨lists, hlists, hflatten⟩ := except_bind_ok hdeliver
    have hcons : ∀ first, serveOne lower s.2 (readings s.1) d = .ok first →
        deliverAll lower (s :: started) readings d = .ok (first ++ sends) := by
      intro first hserve
      cases hflatten
      unfold deliverAll
      rw [List.mapM_cons, hserve, hlists]
      rfl
    rcases serveOne_spec hh hnameFirst (readings s.1) d with ⟨hserve, hno⟩ | ⟨hdr, resp, hw, hserve, hanswered⟩
    · refine ⟨sends, hcons [] hserve, ?_⟩
      rcases hsends with ⟨hnil, hnone⟩ | ⟨s', hs', hspec⟩
      · exact .inl ⟨hnil, List.forall_mem_cons.2 ⟨hno, hnone⟩⟩
      · exact .inr ⟨s', List.mem_cons_of_mem _ hs', hspec⟩
    · refine ⟨_, hcons _ hserve, .inr ⟨s, List.mem_cons_self, hdr, resp, hw, ?_, hanswered⟩⟩
      rcases hsends with ⟨rfl, -⟩ | ⟨s', hs', hdr', -, hw', -⟩
      · rfl
      · exact absurd hw' (hfirst s' hs' hdr hdr' hw)

theorem pairwise_listenersOn (hostname : Bytes) (ipv4Only : Bool) (listens : Interface → Bool → Bool)
    (iface : Interface) :
    (listenersOn hostname ipv4Only listens iface).Pairwise fun s s' => s.2.ipv6 ≠ s'.2.ipv6 := by
  unfold listenersOn
  cases ipv4Only <;> cases listens iface false <;> cases listens iface true <;> simp

/-- **A host answers once.** A daemon that has started is given a datagram on all its
listeners. When no two interfaces have networks that overlap, either no listener wants to
answer, and nothing is sent, or exactly one answers, on an interface that the daemon was told
to serve. -/
theorem answers_once {flags : Flags} {host : Host} {started : List (Interface × Listener)}
    (hstart : main lower flags host = .ok started) (readings : Interface → Readings)
    (hdisjoint : ∀ all, host.interfaces = some all → all.Pairwise fun a b =>
      ∀ net ∈ networks (readings a).atSource, ∀ net' ∈ networks (readings b).atSource,
        net.overlap net' = false)
    (d : Datagram) :
    ∃ sends, deliverAll lower started readings d = .ok sends ∧
      ((sends = [] ∧ ∀ s ∈ started, ∀ hdr, ¬ Wanted lower s.2 (readings s.1) d hdr) ∨
      ∃ s ∈ started, Served flags s.1 ∧ ∃ hdr resp, Wanted lower s.2 (readings s.1) d hdr ∧
        sends = [(d.src, resp), (s.2.group, resp)] ∧
        Answered lower s.2.hostname hdr.id s.2.rrType (ifaceUsableIPs (readings s.1).atAnswer s.2.ipv6)
          resp) := by
  obtain ⟨v, hostname, all, hh, hall, rfl⟩ := main_ok hstart
  have hname : ∀ s ∈ (all.filter (selects (parseInterfaceAllowList flags.ifaceSelector))).flatMap
      (listenersOn hostname flags.ipv4Only host.listens), Served flags s.1 ∧ s.2.hostname = hostname := by
    intro s hs
    obtain ⟨iface, hiface, hs⟩ := List.mem_flatMap.1 hs
    obtain ⟨rfl, hhost⟩ := mem_listenersOn hs
    exact ⟨served_of_selects (List.mem_filter.1 hiface).2, hhost⟩
  have hone : ((all.filter (selects (parseInterfaceAllowList flags.ifaceSelector))).flatMap
      (listenersOn hostname flags.ipv4Only host.listens)).Pairwise fun s s' =>
      ∀ hdr hdr', Wanted lower s.2 (readings s.1) d hdr → ¬ Wanted lower s'.2 (readings s'.1) d hdr' := by
    rw [List.pairwise_flatMap]
    constructor
    · intro iface _
      apply (pairwise_listenersOn hostname flags.ipv4Only host.listens iface).imp
      intro s s' hne hdr hdr' hw hw'
      exact hne (overlap_of_wanted hw hw').1
    · apply ((hdisjoint all hall).filter _).imp
      intro a b hab s hs s' hs' hdr hdr' hw hw'
      obtain ⟨rfl, -⟩ := mem_listenersOn hs
      obtain ⟨rfl, -⟩ := mem_listenersOn hs'
      obtain ⟨-, net, hnet, net', hnet', hoverlap⟩ := overlap_of_wanted hw hw'
      rw [hab net hnet net' hnet'] at hoverlap
      cases hoverlap
  obtain ⟨sends, hdeliver, hsends⟩ := deliverAll_spec hh (fun s hs => (hname s hs).2) hone
  refine ⟨sends, hdeliver, ?_⟩
  rcases hsends with hnone | ⟨s, hs, hdr, resp, hw, hsends, hanswered⟩
  · exact .inl hnone
  · obtain ⟨hserved, hhost⟩ := hname s hs
    rw [← hhost] at hanswered
    exact .inr ⟨s, hs, hserved, hdr, resp, hw, hsends, hanswered⟩

/-! ## Many hosts -/

/-- What clients and daemons have put on the network. Everything stays there: a datagram may
be delivered late, more than once or never. -/
structure Air where
  fromClients : List Datagram
  fromDaemons : List Datagram

inductive Event where
  /-- A client sends a datagram, with any payload. -/
  | client (d : Datagram)
  /-- A listener reads a datagram of a client, and sends from the address `self`. -/
  | query (l : Listener) (readings : Readings) (self : UDPAddr) (d : Datagram)
  /-- A listener reads a datagram of a daemon. -/
  | echo (l : Listener) (readings : Readings) (self : UDPAddr) (d : Datagram)

/-- The datagrams that a turn puts on the network. -/
def datagrams (self : UDPAddr) (sends : List (UDPAddr × Bytes)) : List Datagram :=
  sends.map fun send => ⟨self, send.2⟩

/-- One step of the network. The listeners are those of any daemons, each with a name that
was accepted. -/
inductive Step (lower : Char → Char) : Air → Event → Air → Prop
  | client {air : Air} (d : Datagram) :
      Step lower air (.client d) { air with fromClients := air.fromClients ++ [d] }
  | query {air : Air} {l : Listener} {readings : Readings} {self : UDPAddr} {d : Datagram}
      {v : Bytes} {sends : List (UDPAddr × Bytes)} (hd : d ∈ air.fromClients)
      (hh : normalizeHostname lower v = .ok l.hostname)
      (hserve : serveOne lower l readings d = .ok sends) :
      Step lower air (.query l readings self d)
        { air with fromDaemons := air.fromDaemons ++ datagrams self sends }
  | echo {air : Air} {l : Listener} {readings : Readings} {self : UDPAddr} {d : Datagram}
      {v : Bytes} {sends : List (UDPAddr × Bytes)} (hd : d ∈ air.fromDaemons)
      (hh : normalizeHostname lower v = .ok l.hostname)
      (hserve : serveOne lower l readings d = .ok sends) :
      Step lower air (.echo l readings self d)
        { air with fromDaemons := air.fromDaemons ++ datagrams self sends }

/-- The deliveries of datagrams of clients. -/
def queries (log : List Event) : List Event :=
  log.filter fun event =>
    match event with
    | .query .. => true
    | _ => false

/-- The datagram answers a query of a client that a listener has read. -/
def AnswersQuery (lower : Char → Char) (log : List Event) (answer : Datagram) : Prop :=
  ∃ l readings d hdr, Event.client d ∈ log ∧ Event.query l readings answer.src d ∈ log ∧
    Wanted lower l readings d hdr ∧
    Answered lower l.hostname hdr.id l.rrType (ifaceUsableIPs readings.atAnswer l.ipv6) answer.payload

theorem AnswersQuery.mono {event : Event} {answer : Datagram}
    (h : AnswersQuery lower log answer) : AnswersQuery lower (log ++ [event]) answer := by
  obtain ⟨l, readings, d, hdr, hclient, hquery, hspec⟩ := h
  exact ⟨l, readings, d, hdr, List.mem_append_left _ hclient, List.mem_append_left _ hquery, hspec⟩

theorem serveOne_answered {l : Listener} {readings : Readings} {d : Datagram} {h : Bytes} {id : Nat}
    {rrType : UInt16} {addrs : List IP} (hanswered : Answered lower h id rrType addrs d.payload) :
    serveOne lower l readings d = .ok [] := by
  have hpacket : d.payload.take maxPacketSize = d.payload := List.take_of_length_le hanswered.size
  obtain ⟨hdr, hhdr, hread⟩ := yields_bind.1 hanswered.read
  obtain ⟨records, -, hpure⟩ := yields_bind.1 hread
  have hflags : hdr.flags = 0x8400 := by rw [(Prod.mk.inj (yields_pure.1 hpure)).1]
  have hparse : Yields (parseIntent lower d.payload (fqdn l.hostname)) (hdr, ⟨false, false⟩) :=
    yields_parseIntent_response hhdr hflags (fqdn l.hostname)
  rw [← hpacket] at hparse
  by_cases hsource : sourceIPMatchesInterface readings.atSource d.src.ip l.ipv6 = true
  · rw [serveOne_of_parse hsource hparse, ite_self, if_neg Bool.false_ne_true]
  · unfold serveOne
    dsimp only
    rw [if_neg hsource]
    exact ite_self _

/-- What holds of the network in every run. -/
structure Tracks (lower : Char → Char) (log : List Event) (air : Air) : Prop where
  clients : ∀ d ∈ air.fromClients, Event.client d ∈ log
  answers : ∀ answer ∈ air.fromDaemons, AnswersQuery lower log answer
  bound : air.fromDaemons.length ≤ 2 * (queries log).length

theorem queries_concat (log : List Event) (event : Event) :
    (queries (log ++ [event])).length = (queries log).length + (queries [event]).length := by
  rw [queries, List.filter_append, List.length_append]
  rfl

theorem Tracks.silent {air : Air} (ht : Tracks lower log air) (event : Event)
    (self : UDPAddr) : Tracks lower (log ++ [event])
      { air with fromDaemons := air.fromDaemons ++ datagrams self [] } := by
  rw [datagrams, List.map_nil, List.append_nil]
  refine ⟨fun d hd => List.mem_append_left _ (ht.clients d hd), fun answer hmem => ?_, ?_⟩
  · exact (ht.answers answer hmem).mono
  · rw [queries_concat]
    exact Nat.le_trans ht.bound (by omega)

theorem Tracks.step {air air' : Air} {event : Event} (ht : Tracks lower log air)
    (hstep : Step lower air event air') : Tracks lower (log ++ [event]) air' := by
  have hold : ∀ d ∈ air.fromClients, Event.client d ∈ log ++ [event] :=
    fun d hd => List.mem_append_left _ (ht.clients d hd)
  have hkept : ∀ answer ∈ air.fromDaemons, AnswersQuery lower (log ++ [event]) answer :=
    fun answer hmem => (ht.answers answer hmem).mono
  have hbound := ht.bound
  cases hstep with
  | client d =>
    refine ⟨?_, hkept, ?_⟩
    · intro d' hd'
      rcases List.mem_append.1 hd' with hd' | hd'
      · exact hold d' hd'
      · cases List.mem_singleton.1 hd'
        exact List.mem_append_right _ (List.mem_singleton_self _)
    · rw [queries_concat]
      exact Nat.le_trans hbound (by omega)
  | @query l readings self d v sends hd hh hserve =>
    rcases serveOne_spec hh rfl readings d with ⟨hnone, -⟩ | ⟨hdr, resp, hw, hsends, hanswered⟩
    · rw [hserve] at hnone
      cases hnone
      exact ht.silent _ self
    · rw [hserve] at hsends
      cases hsends
      refine ⟨hold, ?_, ?_⟩
      · intro answer hmem
        rcases List.mem_append.1 hmem with hmem | hmem
        · exact hkept answer hmem
        · have heq : answer = ⟨self, resp⟩ := by simpa [datagrams] using hmem
          subst heq
          exact ⟨l, readings, d, hdr, hold d hd, List.mem_append_right _ (List.mem_singleton_self _),
            hw, hanswered⟩
      · have hone : (queries [Event.query l readings self d]).length = 1 := rfl
        rw [queries_concat, hone, List.length_append]
        simp only [datagrams, List.map_cons, List.map_nil, List.length_cons, List.length_nil]
        omega
  | @echo l readings self d v sends hd hh hserve =>
    obtain ⟨l', readings', d', hdr', -, -, -, hanswered⟩ := ht.answers _ hd
    rw [serveOne_answered hanswered] at hserve
    cases hserve
    exact ht.silent _ self

/-- **No feedback.** Whatever clients send, and in whatever order datagrams are delivered to
the listeners of any number of daemons, each datagram of a daemon answers a query of a
client that was delivered before, no listener answers it in turn, and there are at most two
for each delivery of a client's datagram. -/
theorem no_feedback {log : List Event} {air : Air}
    (hrun : Runs (Step lower) (fun _ _ => True) ⟨[], []⟩ log air) :
    (∀ answer ∈ air.fromDaemons, AnswersQuery lower log answer ∧
      ∀ l readings, serveOne lower l readings answer = .ok []) ∧
    air.fromDaemons.length ≤ 2 * (queries log).length := by
  have htracks : Tracks lower log air := by
    apply hrun.inv (Tracks lower)
    · exact ⟨by simp, by simp, Nat.zero_le _⟩
    · intro log air event air' ht _ hstep
      exact ht.step hstep
  refine ⟨?_, htracks.bound⟩
  intro answer hmem
  have hcaused := htracks.answers answer hmem
  obtain ⟨l', readings', d', hdr', -, -, -, hanswered⟩ := hcaused
  exact ⟨htracks.answers answer hmem, fun l readings => serveOne_answered hanswered⟩

end

/-- A host on two networks, of which one is served. -/
def sampleHost : Host where
  hostnameFile := some (ascii "Host\n# not read\n")
  interfaces := some [⟨ascii "lo", true, true, false⟩, ⟨ascii "eth0", true, false, true⟩,
    ⟨ascii "net1", true, false, true⟩]
  listens _ _ := true

def sampleFlags : Flags where
  hostOverride := []
  ipv4Only := true
  ifaceSelector := ascii "eth0, net1"

/-- The addresses of its interfaces, by their names. -/
def sampleAddrs (iface : Interface) : Readings :=
  let addrs := if iface.name = ascii "eth0" then [Addr.ipNet ⟨[10, 0, 0, 7], [255, 255, 255, 0]⟩]
    else if iface.name = ascii "net1" then [Addr.ipNet ⟨[10, 0, 1, 7], [255, 255, 255, 0]⟩]
    else [Addr.ipNet ⟨[127, 0, 0, 1], [255, 0, 0, 0]⟩]
  { atSource := some addrs, atAnswer := some addrs }

/-- Its listener on the first network. -/
def eth0Listener : Interface × Listener := (⟨ascii "eth0", true, false, true⟩, ⟨group4, ascii "host", false⟩)

theorem wanted_eth0 :
    Wanted id eth0Listener.2 (sampleAddrs eth0Listener.1) sampleDatagram ⟨0, 0, 1, 0, 0, 0⟩ where
  source := by decide +kernel
  parsed := ⟨⟨true, false⟩, by decide +kernel⟩
  query := wanted_sample.query
  asks := wanted_sample.asks
  usable := by decide +kernel

theorem answers_once_sample :
    main id sampleFlags sampleHost =
      .ok [eth0Listener, (⟨ascii "net1", true, false, true⟩, ⟨group4, ascii "host", false⟩)] ∧
    ∃ sends, deliverAll id [eth0Listener, (⟨ascii "net1", true, false, true⟩, ⟨group4, ascii "host", false⟩)]
      sampleAddrs sampleDatagram = .ok sends ∧ sends.length = 2 := by
  have hstart : main id sampleFlags sampleHost =
      .ok [eth0Listener, (⟨ascii "net1", true, false, true⟩, ⟨group4, ascii "host", false⟩)] := by
    decide +kernel
  obtain ⟨sends, hdeliver, hsends⟩ := answers_once hstart sampleAddrs (by
    intro all hall
    cases hall
    decide +kernel) sampleDatagram
  refine ⟨hstart, sends, hdeliver, ?_⟩
  rcases hsends with ⟨-, hnone⟩ | ⟨s, -, -, hdr, resp, -, rfl, -⟩
  · exact absurd wanted_eth0 (hnone eth0Listener List.mem_cons_self _)
  · rfl

/-- A client asks, the host answers, and its answer comes back to it. -/
theorem no_feedback_sample :
    ∃ log air, Runs (Step id) (fun _ _ => True) ⟨[], []⟩ log air ∧ air.fromDaemons.length = 2 ∧
      (∀ answer ∈ air.fromDaemons, ∀ l readings, serveOne id l readings answer = .ok []) := by
  have hh : normalizeHostname id (ascii "Host") = .ok (ascii "host") := by decide +kernel
  rcases serveOne_spec hh (l := eth0Listener.2) rfl (sampleAddrs eth0Listener.1) sampleDatagram with
    ⟨-, hno⟩ | ⟨hdr, resp, -, hserve, -⟩
  · exact absurd wanted_eth0 (hno _)
  have hasked : Runs (Step id) (fun _ _ => True) ⟨[], []⟩ ([] ++ [.client sampleDatagram])
      ⟨[] ++ [sampleDatagram], []⟩ := .step .start trivial (.client sampleDatagram)
  have hanswer : Step id ⟨[] ++ [sampleDatagram], []⟩
      (.query eth0Listener.2 (sampleAddrs eth0Listener.1) ⟨[10, 0, 0, 7], 5353⟩ sampleDatagram) _ :=
    .query List.mem_cons_self hh hserve
  have hrun := Runs.step hasked trivial hanswer
  have hanswers := no_feedback hrun
  exact ⟨_, _, hrun, rfl, fun answer hmem => (hanswers.1 answer hmem).2⟩

end Dockerset.Mdns

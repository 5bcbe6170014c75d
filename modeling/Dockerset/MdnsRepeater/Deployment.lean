import Dockerset.Data.Incidence
import Dockerset.Logic.Runs
import Dockerset.MdnsRepeater.Repeat

/-!
# Repeaters on a network

Any number of repeaters join any number of links. A datagram that a host sends to the
group is heard by the repeaters on its link, each of them sends it on, with its own
address, on its other links, and the repeaters there hear it again. Datagrams can be
lost, arrive in any order, and arrive more than once.

A repeater knows its own datagrams by their address and never repeats them. That is
enough to keep a datagram from turning back at a station, and where links and repeaters
form no cycle it is enough to keep it from coming to a link twice (`repeated_on_path`).
There, if every datagram is heard once by every repeater on its link, each link hears
each host exactly once (`heard_exactly_once`).
-/

namespace Dockerset.MdnsRepeater
open Clib Data Logic

variable {L R : Type}

/-- Repeaters with their sockets, the links that the sockets are on, and the network of
each link. -/
structure Site (L R : Type) where
  config : R → Config
  opened : ∀ r, ∃ names, Opened names (config r).socks
  link : R → Nat → L
  mask : L → InAddr
  net : L → InAddr

/-- The address is in the network of the link. -/
def Site.inNet (S : Site L R) (l : L) (a : InAddr) : Prop := a &&& S.mask l = S.net l

/-- The repeater has a socket on the link. -/
def Site.on (S : Site L R) (r : R) (l : L) : Prop :=
  ∃ k ∈ (S.config r).socks, S.link r k.sockfd = l

instance (S : Site L R) (l : L) (a : InAddr) : Decidable (S.inNet l a) :=
  inferInstanceAs (Decidable (_ = _))

instance [DecidableEq L] (S : Site L R) (r : R) (l : L) : Decidable (S.on r l) :=
  inferInstanceAs (Decidable (∃ k ∈ (S.config r).socks, S.link r k.sockfd = l))

/-- The network is addressed as it should be: an interface has the mask and the network of
its link, links have no address in common, repeaters neither, and a repeater has one
interface on each of its links. -/
structure Site.Addressed (S : Site L R) : Prop where
  ports : ∀ r, ∀ k ∈ (S.config r).socks,
    k.mask = S.mask (S.link r k.sockfd) ∧ k.net = S.net (S.link r k.sockfd)
  apart : ∀ a l l', S.inNet l a → S.inNet l' a → l = l'
  own : ∀ r r', ∀ k ∈ (S.config r).socks, ∀ k' ∈ (S.config r').socks, k.addr = k'.addr → r = r'
  single : ∀ r, ∀ k ∈ (S.config r).socks, ∀ k' ∈ (S.config r).socks,
    S.link r k.sockfd = S.link r k'.sockfd → k = k'

/-- A datagram on a link. What follows the payload is its history: the host's datagram that
it repeats, what was heard by whom when it was sent, and the way it has come. -/
structure Datagram (L R : Type) where
  link : L
  src : InAddr
  payload : List UInt8
  origin : Nat
  cause : Option (Nat × R)
  trail : List (L ⊕ R)
deriving DecidableEq

/-- Everything that was ever sent, in order. -/
abbrev Air (L R : Type) := List (Datagram L R)

inductive Event (L R : Type)
  /-- A host sends a datagram on its link. -/
  | host (l : L) (src : InAddr) (payload : List UInt8)
  /-- A repeater hears the datagram with this index. -/
  | hear (i : Nat) (r : R)

/-- What a repeater sends with its socket `k` for the datagram `d`. -/
def Site.copy (S : Site L R) (r : R) (i : Nat) (d : Datagram L R) (k : IfSock) : Datagram L R :=
  ⟨S.link r k.sockfd, k.addr, d.payload, d.origin, some (i, r),
    d.trail ++ [.inr r, .inl (S.link r k.sockfd)]⟩

inductive Step (S : Site L R) : Air L R → Event L R → Air L R → Prop
  | host {air : Air L R} {l : L} {src : InAddr} {payload : List UInt8} (hnet : S.inNet l src)
      (hown : ∀ r, ∀ k ∈ (S.config r).socks, src ≠ k.addr) :
      Step S air (.host l src payload) (air ++ [⟨l, src, payload, air.length, none, [.inl l]⟩])
  | hear {air : Air L R} {i : Nat} {r : R} {d : Datagram L R} (hd : air[i]? = some d)
      (hon : S.on r d.link) :
      Step S air (.hear i r) (air ++ (repeatTo (S.config r) d.src).map (S.copy r i d))

/-- The graph of links and repeaters. -/
def Site.topology (S : Site L R) : SimpleGraph (L ⊕ R) := incidence S.on

/-! ## Where a datagram comes from -/

/-- The datagram with index `i` is a host's, or a repeater's copy of an earlier one. -/
inductive Caused (S : Site L R) (air : Air L R) (i : Nat) : Datagram L R → Prop
  | host {l : L} {src : InAddr} {payload : List UInt8} (hnet : S.inNet l src)
      (hown : ∀ r, ∀ k ∈ (S.config r).socks, src ≠ k.addr) :
      Caused S air i ⟨l, src, payload, i, none, [.inl l]⟩
  | copy {j : Nat} {r : R} {e : Datagram L R} {k : IfSock} (hj : j < i) (he : air[j]? = some e)
      (hon : S.on r e.link) (hk : k ∈ repeatTo (S.config r) e.src) : Caused S air i (S.copy r j e k)

section Runs

variable {S : Site L R} {allowed : List (Event L R) → Event L R → Prop} {log : List (Event L R)}
  {air air' : Air L R} {e : Event L R} {i j : Nat} {d : Datagram L R} {r : R}

theorem Step.grows (h : Step S air e air') : ∃ new, air' = air ++ new := by
  cases h with
  | host => exact ⟨_, rfl⟩
  | hear => exact ⟨_, rfl⟩

theorem Step.keeps (h : Step S air e air') (hd : air[i]? = some d) : air'[i]? = some d := by
  obtain ⟨new, rfl⟩ := h.grows
  rw [List.getElem?_append_left (List.getElem?_eq_some_iff.1 hd).1, hd]

theorem Caused.mono (h : Caused S air i d) (hs : Step S air e air') : Caused S air' i d := by
  cases h with
  | host hnet hown => exact .host hnet hown
  | copy hj he hon hk => exact .copy hj (hs.keeps he) hon hk

theorem getElem?_append_cases {α : Type} {l new : List α} {a : α} {n : Nat}
    (h : (l ++ new)[n]? = some a) : l[n]? = some a ∨ (l.length ≤ n ∧ a ∈ new) := by
  by_cases hn : n < l.length
  · rw [List.getElem?_append_left hn] at h
    exact .inl h
  · rw [List.getElem?_append_right (by omega)] at h
    exact .inr ⟨by omega, List.mem_of_getElem? h⟩

theorem Step.caused (hs : Step S air e air') (h : ∀ (i : Nat) d, air[i]? = some d → Caused S air i d) :
    ∀ (i : Nat) d, air'[i]? = some d → Caused S air' i d := by
  intro i d hd
  cases hs with
  | @host l src payload hnet hown =>
    rcases getElem?_concat_eq hd with hold | ⟨rfl, rfl⟩
    · exact (h i d hold).mono (.host hnet hown)
    · exact .host hnet hown
  | @hear j r e he hon =>
    rcases getElem?_append_cases hd with hold | ⟨hlen, hmem⟩
    · exact (h i d hold).mono (.hear he hon)
    · obtain ⟨k, hk, rfl⟩ := List.mem_map.1 hmem
      have hj := (List.getElem?_eq_some_iff.1 he).1
      exact .copy (by omega) ((Step.hear he hon).keeps he) hon hk

/-- **Every datagram is caused.** -/
theorem caused_of_run (h : Runs (Step S) allowed [] log air) (hd : air[i]? = some d) :
    Caused S air i d :=
  h.inv (fun _ air => ∀ (i : Nat) d, air[i]? = some d → Caused S air i d) (by simp)
    (fun _ _ _ _ hinv _ hs => hs.caused hinv) i d hd

end Runs

/-! ## The way it has come -/

section Path

variable {S : Site L R} {air : Air L R} {i : Nat} {d : Datagram L R} {r : R} {k : IfSock}

theorem Site.on_of_mem (hk : k ∈ (S.config r).socks) : S.on r (S.link r k.sockfd) := ⟨k, hk, rfl⟩

theorem Site.Addressed.inNet_port (hS : S.Addressed) (hk : k ∈ (S.config r).socks) :
    S.inNet (S.link r k.sockfd) k.addr := by
  obtain ⟨names, hopen⟩ := S.opened r
  obtain ⟨hmask, hnet⟩ := hS.ports r k hk
  rw [Site.inNet, ← hmask, ← hnet]
  exact (hopen.nets k hk).symm

theorem Site.Addressed.onNet_iff (hS : S.Addressed) (hk : k ∈ (S.config r).socks) {a : InAddr} :
    k.onNet a = true ↔ S.inNet (S.link r k.sockfd) a := by
  obtain ⟨hmask, hnet⟩ := hS.ports r k hk
  rw [IfSock.onNet, beq_iff_eq, hmask, hnet, Site.inNet]

theorem Caused.inNet (hS : S.Addressed) (h : Caused S air i d) : S.inNet d.link d.src := by
  cases h with
  | host hnet => exact hnet
  | copy _ _ _ hk => exact hS.inNet_port (mem_repeatTo.1 hk).1

theorem Caused.of_own (hS : S.Addressed) (h : Caused S air i d) (hk : k ∈ (S.config r).socks)
    (hsrc : d.src = k.addr) : ∃ j e k', j < i ∧ air[j]? = some e ∧ S.on r e.link ∧
      k' ∈ repeatTo (S.config r) e.src ∧ d = S.copy r j e k' := by
  cases h with
  | host _ hown => exact absurd hsrc (hown r k hk)
  | @copy j r' e k' hj he hon hk' =>
    have hr := hS.own _ _ k' (mem_repeatTo.1 hk').1 k hk hsrc
    subst hr
    exact ⟨j, e, k', hj, he, hon, hk', rfl⟩

/-- The datagram comes from a host's by a path of the topology, and the repeater that sent
it is the last on the path. -/
structure Routed (S : Site L R) (air : Air L R) (d : Datagram L R) (o : Datagram L R)
    (p : S.topology.Walk (.inl o.link) (.inl d.link)) : Prop where
  origin : air[d.origin]? = some o
  host : o.cause = none
  payload : d.payload = o.payload
  isPath : p.IsPath
  trail : d.trail = p.support
  last : ∀ j r, d.cause = some (j, r) → p.penultimate = .inr r

theorem exists_routed (hS : S.Addressed) (hG : S.topology.IsAcyclic)
    (hall : ∀ (i : Nat) d, air[i]? = some d → Caused S air i d) :
    ∀ (i : Nat) d, air[i]? = some d → ∃ o p, Routed S air d o p := by
  intro i
  induction i using Nat.strong_induction_on with
  | _ i ih =>
    intro d hd
    have hc := hall i d hd
    cases hc with
    | host hnet hown =>
      exact ⟨_, .nil, hd, rfl, rfl, .nil, rfl, fun j r h => by cases h⟩
    | @copy j r e k hj he hon hk =>
      obtain ⟨o, p, hp⟩ := ih j hj e he
      have hkmem := (mem_repeatTo.1 hk).1
      have hin : S.topology.Adj (.inl e.link) (.inr r) := incidence_enter hon
      have hout : S.topology.Adj (.inr r) (.inl (S.link r k.sockfd)) :=
        incidence_leave (Site.on_of_mem hkmem)
      -- it does not turn back at the link: the repeater has not sent what it hears
      have hnew : (.inr r : L ⊕ R) ≠ p.penultimate := by
        intro hback
        have hce := hall j e he
        cases hce with
        | host =>
          cases p with
          | nil => cases hback
          | cons h q =>
            have htrail := congrArg List.length hp.trail
            simp at htrail
        | @copy j' r' e' k' _ _ _ hk' =>
          have hlast := hp.last j' r' rfl
          rw [← hback] at hlast
          cases hlast
          exact (mem_repeatTo.1 hk).2.1 k' (mem_repeatTo.1 hk').1 rfl
      -- nor at the repeater: it does not send to the network of the sender
      have hnext : (.inl (S.link r k.sockfd) : L ⊕ R) ≠ (p.concat hin).penultimate := by
        rw [SimpleGraph.Walk.penultimate_concat]
        intro hsame
        have hlink : S.link r k.sockfd = e.link := Sum.inl.inj hsame
        have hoff := (mem_repeatTo.1 hk).2.2.2.1
        have hon' := (hS.onNet_iff hkmem).2 (hlink ▸ (hall j e he).inNet hS)
        rw [hon'] at hoff
        cases hoff
      have hpath := isPath_concat hG (isPath_concat hG hp.isPath hin hnew) hout hnext
      have htrail : e.trail ++ [.inr r, .inl (S.link r k.sockfd)] =
          ((p.concat hin).concat hout).support := by
        rw [SimpleGraph.Walk.support_concat, SimpleGraph.Walk.support_concat, hp.trail]
        simp
      have hlast : ((p.concat hin).concat hout).penultimate = .inr r :=
        SimpleGraph.Walk.penultimate_concat _ _
      refine ⟨o, (p.concat hin).concat hout, hp.origin, hp.host, hp.payload, hpath, htrail, ?_⟩
      intro j' r' hcause
      cases hcause
      exact hlast

end Path

/-- **A datagram comes to no link twice.** In every run, where links and repeaters form no
cycle, a datagram has the payload of a host's, from which it has come by a path. -/
theorem repeated_on_path {S : Site L R} {allowed : List (Event L R) → Event L R → Prop}
    {log : List (Event L R)} {air : Air L R} {i : Nat} {d : Datagram L R} (hS : S.Addressed)
    (hG : S.topology.IsAcyclic) (hrun : Runs (Step S) allowed [] log air) (hd : air[i]? = some d) :
    ∃ o, air[d.origin]? = some o ∧ o.cause = none ∧ d.payload = o.payload ∧
      ∃ p : S.topology.Path (.inl o.link) (.inl d.link), d.trail = p.1.support := by
  obtain ⟨o, p, hp⟩ := exists_routed hS hG (fun i d hd => caused_of_run hrun hd) i d hd
  exact ⟨o, hp.origin, hp.host, hp.payload, ⟨p, hp.isPath⟩, hp.trail⟩

/-! ## Once on every link -/

/-- A repeater hears a datagram at most once. -/
def HeardOnce (log : List (Event L R)) (e : Event L R) : Prop := ∀ i r, e = .hear i r → e ∉ log

/-- What the log says about the air: a copy was heard, a repeater that has heard a
datagram has sent its copies, and each with another cause or to another link. -/
structure Logged (S : Site L R) (log : List (Event L R)) (air : Air L R) : Prop where
  caused : ∀ (i : Nat) d, air[i]? = some d → Caused S air i d
  past : ∀ (j : Nat) r, .hear j r ∈ log → j < air.length
  heard : ∀ (i : Nat) d j r, air[i]? = some d → d.cause = some (j, r) → .hear j r ∈ log
  sent : ∀ (j : Nat) r d, .hear j r ∈ log → air[j]? = some d →
    ∀ k ∈ repeatTo (S.config r) d.src, ∃ i : Nat, air[i]? = some (S.copy r j d k)
  distinct : ∀ (i i' : Nat) d d', air[i]? = some d → air[i']? = some d' → d.cause ≠ none →
    d.cause = d'.cause → d.link = d'.link → i = i'

section Once

variable {S : Site L R} {log : List (Event L R)} {air air' : Air L R} {e : Event L R}

theorem Site.Addressed.copies_distinct (hS : S.Addressed) {r : R} {j : Nat} {d a b : Datagram L R}
    {m n : Nat} (ha : ((repeatTo (S.config r) d.src).map (S.copy r j d))[m]? = some a)
    (hb : ((repeatTo (S.config r) d.src).map (S.copy r j d))[n]? = some b) (hlink : a.link = b.link) :
    m = n := by
  rw [List.getElem?_map, Option.map_eq_some_iff] at ha hb
  obtain ⟨k, hk, rfl⟩ := ha
  obtain ⟨k', hk', rfl⟩ := hb
  have hmem := (mem_repeatTo.1 (List.mem_of_getElem? hk)).1
  have hmem' := (mem_repeatTo.1 (List.mem_of_getElem? hk')).1
  have he : k = k' := hS.single r k hmem k' hmem' hlink
  subst he
  -- descriptors are different, so a socket is in the list once
  have hnodup : (repeatTo (S.config r) d.src).Nodup := by
    obtain ⟨names, hopen⟩ := S.opened r
    have hfds : ((S.config r).socks.map IfSock.sockfd).Nodup := hopen.fds ▸ List.nodup_range
    exact (List.Nodup.of_map _ hfds).sublist (repeatTo_sublist _ _)
  obtain ⟨hm, hk⟩ := List.getElem?_eq_some_iff.1 hk
  obtain ⟨hn, hk'⟩ := List.getElem?_eq_some_iff.1 hk'
  exact hnodup.getElem_inj_iff.1 (hk.trans hk'.symm)

theorem Logged.host (h : Logged S log air) {l : L} {src : InAddr} {payload : List UInt8}
    (hs : Step S air (.host l src payload) air') : Logged S (log ++ [.host l src payload]) air' := by
  have hlog : ∀ {j r}, Event.hear j r ∈ log ++ [.host l src payload] → .hear j r ∈ log := by
    intro j r hmem
    simpa using hmem
  have hold : ∀ {i : Nat} {d : Datagram L R}, air'[i]? = some d → air[i]? = some d ∨ d.cause = none := by
    intro i d hd
    cases hs with
    | host =>
      rcases getElem?_concat_eq hd with hd | ⟨-, rfl⟩
      · exact .inl hd
      · exact .inr rfl
  have hlt : air.length < air'.length := by
    cases hs with
    | host => simp
  refine ⟨hs.caused h.caused, fun j r hmem => ?_, fun i d j r hd hc => ?_, fun j r d hmem hd k hk => ?_,
    fun i i' d d' hd hd' hne hc hl => ?_⟩
  · have := h.past j r (hlog hmem)
    omega
  · rcases hold hd with hd | hnone
    · exact List.mem_append_left _ (h.heard i d j r hd hc)
    · rw [hnone] at hc
      cases hc
  · obtain ⟨d', hd'⟩ : ∃ d', air[j]? = some d' := ⟨_, List.getElem?_eq_getElem (h.past j r (hlog hmem))⟩
    have hsame := hs.keeps hd'
    rw [hd] at hsame
    cases hsame
    obtain ⟨i, hi⟩ := h.sent j r d (hlog hmem) hd' k hk
    exact ⟨i, hs.keeps hi⟩
  · rcases hold hd with hd | hnone
    · rcases hold hd' with hd' | hnone
      · exact h.distinct i i' d d' hd hd' hne hc hl
      · exact absurd (hc.trans hnone) hne
    · exact absurd hnone hne

theorem Logged.hear (hS : S.Addressed) (h : Logged S log air) {j : Nat} {r : R}
    (hfresh : .hear j r ∉ log) (hs : Step S air (.hear j r) air') :
    Logged S (log ++ [.hear j r]) air' := by
  have hcaused := hs.caused h.caused
  have hkeep := fun {i : Nat} {d : Datagram L R} (hd : air[i]? = some d) => hs.keeps hd
  cases hs with
  | @hear _ _ d₀ hd₀ hon =>
  have hj := (List.getElem?_eq_some_iff.1 hd₀).1
  -- an entry is an old one, or the copy with this number
  have hnew : ∀ {i : Nat} {d : Datagram L R},
      (air ++ (repeatTo (S.config r) d₀.src).map (S.copy r j d₀))[i]? = some d →
      air[i]? = some d ∨ ∃ m, i = air.length + m ∧ d.cause = some (j, r) ∧
        ((repeatTo (S.config r) d₀.src).map (S.copy r j d₀))[m]? = some d := by
    intro i d hd
    by_cases hi : i < air.length
    · rw [List.getElem?_append_left hi] at hd
      exact .inl hd
    · rw [List.getElem?_append_right (by omega)] at hd
      obtain ⟨k, -, rfl⟩ := List.mem_map.1 (List.mem_of_getElem? hd)
      exact .inr ⟨i - air.length, by omega, rfl, hd⟩
  refine ⟨hcaused, fun j' r' hmem => ?_, fun i d j' r' hd hc => ?_, fun j' r' d hmem hd k hk => ?_,
    fun i i' d d' hd hd' hne hc hl => ?_⟩
  · rw [List.length_append]
    rcases List.mem_append.1 hmem with hmem | hmem
    · have := h.past j' r' hmem
      omega
    · cases List.mem_singleton.1 hmem
      omega
  · rcases hnew hd with hd | ⟨m, -, hcause, -⟩
    · exact List.mem_append_left _ (h.heard i d j' r' hd hc)
    · rw [hcause] at hc
      cases hc
      exact List.mem_append_right _ (List.mem_singleton.2 rfl)
  · rcases List.mem_append.1 hmem with hmem | hmem
    · obtain ⟨d', hd'⟩ : ∃ d', air[j']? = some d' := ⟨_, List.getElem?_eq_getElem (h.past j' r' hmem)⟩
      have hsame := hkeep hd'
      rw [hd] at hsame
      cases hsame
      obtain ⟨i, hi⟩ := h.sent j' r' d hmem hd' k hk
      exact ⟨i, hkeep hi⟩
    · cases List.mem_singleton.1 hmem
      have hsame := hkeep hd₀
      rw [hd] at hsame
      cases hsame
      obtain ⟨m, hm⟩ := List.mem_iff_getElem?.1 (List.mem_map_of_mem (f := S.copy r j d₀) hk)
      refine ⟨air.length + m, ?_⟩
      rw [List.getElem?_append_right (by omega), Nat.add_sub_cancel_left]
      exact hm
  · rcases hnew hd with hd | ⟨m, rfl, hcause, hm⟩
    · rcases hnew hd' with hd' | ⟨m', -, hcause', -⟩
      · exact h.distinct i i' d d' hd hd' hne hc hl
      · exact absurd (h.heard i d j r hd (hc.trans hcause')) hfresh
    · rcases hnew hd' with hd' | ⟨m', rfl, -, hm'⟩
      · exact absurd (h.heard i' d' j r hd' (hc.symm.trans hcause)) hfresh
      · rw [hS.copies_distinct hm hm' hl]

theorem logged_of_run (hS : S.Addressed) (hrun : Runs (Step S) HeardOnce [] log air) :
    Logged S log air := by
  refine hrun.inv (fun log air => Logged S log air) ⟨by simp, by simp, by simp, by simp, by simp⟩ ?_
  intro log air e air' h hone hs
  cases e with
  | host l src payload => exact h.host hs
  | hear j r => exact h.hear hS (hone j r rfl) hs

theorem Logged.unique (hS : S.Addressed) (hG : S.topology.IsAcyclic) (h : Logged S log air) :
    ∀ (i i' : Nat) d d', air[i]? = some d → air[i']? = some d' → d.origin = d'.origin →
      d.link = d'.link → i = i' := by
  intro i
  induction i using Nat.strong_induction_on with
  | _ i ih =>
    intro i' d d' hd hd' horigin hlink
    -- both have come by the only path there is
    have htrail : d.trail = d'.trail := by
      obtain ⟨o, p, hp⟩ := exists_routed hS hG h.caused i d hd
      obtain ⟨o', p', hp'⟩ := exists_routed hS hG h.caused i' d' hd'
      have ho : o = o' := by
        have := hp.origin
        rw [horigin, hp'.origin] at this
        exact (Option.some.inj this).symm
      subst ho
      rw [hp.trail, hp'.trail]
      obtain ⟨l', src', payload', origin', cause', trail'⟩ := d'
      obtain rfl : d.link = l' := hlink
      exact support_eq_of_acyclic hG hp.isPath hp'.isPath
    have hc := h.caused i d hd
    have hc' := h.caused i' d' hd'
    cases hc with
    | host =>
      cases hc' with
      | host => exact horigin
      | copy =>
        have hlen := congrArg List.length htrail
        simp [Site.copy] at hlen
    | @copy j r e k hj he hon hk =>
      cases hc' with
      | host =>
        have hlen := congrArg List.length htrail
        simp [Site.copy] at hlen
      | @copy j' r' e' k' hj' he' hon' hk' =>
        obtain ⟨hbefore, hends⟩ := List.append_inj' htrail rfl
        have hr : r = r' := by
          have := (List.cons.inj hends).1
          exact Sum.inr.inj this
        subst hr
        have hlast : ∀ {n : Nat} {e : Datagram L R}, air[n]? = some e →
            e.trail.getLast? = some (.inl e.link) := by
          intro n e he
          have hce := h.caused n e he
          cases hce with
          | host => rfl
          | copy => simp [Site.copy]
        have helink : e.link = e'.link := by
          have hl := hlast he
          rw [hbefore, hlast he'] at hl
          exact (Sum.inl.inj (Option.some.inj hl)).symm
        have hjj := ih j hj j' e e' he he' horigin helink
        subst hjj
        exact h.distinct i i' _ _ hd hd' (by simp [Site.copy]) rfl hlink

theorem Site.Addressed.mem_repeatTo_of_link (hS : S.Addressed) {r : R} {d : Datagram L R} {k : IfSock}
    (hlists : (S.config r).blacklisted = [] ∧ (S.config r).whitelisted = []) (hnet : S.inNet d.link d.src)
    (hon : S.on r d.link) (hown : ∀ j ∈ (S.config r).socks, d.src ≠ j.addr)
    (hk : k ∈ (S.config r).socks) (hne : S.link r k.sockfd ≠ d.link) :
    k ∈ repeatTo (S.config r) d.src := by
  obtain ⟨j, hj, hlink⟩ := hon
  refine mem_repeatTo.2 ⟨hk, hown, ⟨j, hj, (hS.onNet_iff hj).2 (hlink ▸ hnet)⟩, ?_, ?_⟩
  · rw [Bool.eq_false_iff]
    exact fun hin => hne (hS.apart _ _ _ ((hS.onNet_iff hk).1 hin) hnet)
  · simp [Config.admits, hlists.1, hlists.2]

/-- What a host sends comes to every link, once everything is heard. -/
theorem Logged.reaches (hS : S.Addressed) (h : Logged S log air)
    (hlists : ∀ r, (S.config r).blacklisted = [] ∧ (S.config r).whitelisted = [])
    (hquiet : ∀ (i : Nat) d r, air[i]? = some d → S.on r d.link → .hear i r ∈ log) {n : Nat}
    {o : Datagram L R} (ho : air[n]? = some o) (hhost : o.origin = n) {l : L}
    (hreach : S.topology.Reachable (.inl o.link) (.inl l)) :
    ∃ (i : Nat) (d : Datagram L R), air[i]? = some d ∧ d.origin = n ∧ d.link = l := by
  let P : L ⊕ R → Prop := Sum.elim
    (fun l => ∃ (i : Nat) (d : Datagram L R), air[i]? = some d ∧ d.origin = n ∧ d.link = l)
    (fun r => ∃ (i : Nat) (d : Datagram L R), air[i]? = some d ∧ d.origin = n ∧ S.on r d.link)
  have hstart : P (.inl o.link) := ⟨n, o, ho, hhost, rfl⟩
  refine reachable_induction (P := P) ?_ hstart hreach
  rintro x y (⟨l, r, rfl, rfl, hon⟩ | ⟨l, r, rfl, rfl, hon⟩)
  · rintro ⟨i, d, hd, horigin, rfl⟩
    exact ⟨i, d, hd, horigin, hon⟩
  · rintro ⟨i, d, hd, horigin, hond⟩
    obtain ⟨k, hk, hlink⟩ := hon
    -- a datagram that the repeater has not sent itself comes to `l`, or is there already
    have hforeign : ∀ {i : Nat} {d : Datagram L R}, air[i]? = some d → d.origin = n → S.on r d.link →
        (∀ j ∈ (S.config r).socks, d.src ≠ j.addr) → P (.inl l) := by
      intro i d hd horigin hond hown
      by_cases he : S.link r k.sockfd = d.link
      · exact ⟨i, d, hd, horigin, he.symm.trans hlink⟩
      · have hsend := hS.mem_repeatTo_of_link (hlists r) ((h.caused i d hd).inNet hS) hond hown hk he
        obtain ⟨i', hi'⟩ := h.sent i r d (hquiet i d r hd hond) hd k hsend
        exact ⟨i', _, hi', horigin, hlink⟩
    by_cases hown : ∀ j ∈ (S.config r).socks, d.src ≠ j.addr
    · exact hforeign hd horigin hond hown
    · -- one that it has sent repeats one that it has heard
      push Not at hown
      obtain ⟨j, hj, hsrc⟩ := hown
      obtain ⟨m, e, k', -, he, hone, hk', rfl⟩ := (h.caused i d hd).of_own hS hj hsrc
      exact hforeign he horigin hone (mem_repeatTo.1 hk').2.1

end Once

/-- **Each link hears each host exactly once.** Where links and repeaters form no cycle and no
subnets are listed, if every repeater hears each datagram on its links once, then what a
host sends is on every link that it can come to in exactly one datagram. -/
theorem heard_exactly_once {S : Site L R} {log : List (Event L R)} {air : Air L R} {n : Nat}
    {o : Datagram L R} {l : L} (hS : S.Addressed) (hG : S.topology.IsAcyclic)
    (hlists : ∀ r, (S.config r).blacklisted = [] ∧ (S.config r).whitelisted = [])
    (hrun : Runs (Step S) HeardOnce [] log air)
    (hquiet : ∀ (i : Nat) d r, air[i]? = some d → S.on r d.link → .hear i r ∈ log)
    (ho : air[n]? = some o) (hhost : o.cause = none)
    (hreach : S.topology.Reachable (.inl o.link) (.inl l)) :
    ∃! i : Nat, ∃ d, air[i]? = some d ∧ d.link = l ∧ d.origin = n ∧ d.payload = o.payload := by
  have h := logged_of_run hS hrun
  have horigin : o.origin = n := by
    have hc := h.caused n o ho
    cases hc with
    | host => rfl
    | copy => cases hhost
  obtain ⟨i, d, hd, hdn, hdl⟩ := h.reaches hS hlists hquiet ho horigin hreach
  have hpayload : d.payload = o.payload := by
    obtain ⟨o', p, hp⟩ := exists_routed hS hG h.caused i d hd
    have hsame := hp.origin
    rw [hdn, ho] at hsame
    cases hsame
    exact hp.payload
  refine ⟨i, ⟨d, hd, hdl, hdn, hpayload⟩, ?_⟩
  rintro i' ⟨d', hd', hdl', hdn', -⟩
  exact h.unique hS hG i' i d' d hd' hd (hdn'.trans hdn.symm) (hdl'.trans hdl.symm)

/-! ## One repeater between two links -/

/-- The program started on `twoPorts` without options. -/
def bridge : Config :=
  ((start gcc twoPorts [] [Go.ascii "eth0", Go.ascii "eth1"]).toOption).getD ⟨[], [], []⟩

def bridgeSite : Site Bool Unit where
  config _ := bridge
  opened _ := ⟨[Go.ascii "eth0", Go.ascii "eth1"], by decide +kernel, by decide +kernel,
    by decide +kernel, by decide +kernel⟩
  link _ fd := fd == 1
  mask l := if l then Quad.inAddr ⟨255, 255, 255, 0⟩ else Quad.inAddr ⟨255, 0, 0, 0⟩
  net l := if l then Quad.inAddr ⟨192, 168, 1, 0⟩ else Quad.inAddr ⟨10, 0, 0, 0⟩

theorem addressed_bridgeSite : bridgeSite.Addressed where
  ports := by decide +kernel
  own _ _ _ _ _ _ _ := rfl
  single := by decide +kernel
  apart := by
    -- the longer mask has the shorter one in it, and the networks differ under that
    have hclash : ∀ a, bridgeSite.inNet false a → bridgeSite.inNet true a → False := by
      intro a h8 h24
      have hmask : Quad.inAddr ⟨255, 0, 0, 0⟩ =
          Quad.inAddr ⟨255, 255, 255, 0⟩ &&& Quad.inAddr ⟨255, 0, 0, 0⟩ := by decide +kernel
      have h : a &&& Quad.inAddr ⟨255, 0, 0, 0⟩ = Quad.inAddr ⟨10, 0, 0, 0⟩ := h8
      have h' : a &&& Quad.inAddr ⟨255, 255, 255, 0⟩ = Quad.inAddr ⟨192, 168, 1, 0⟩ := h24
      rw [hmask, ← BitVec.and_assoc, h'] at h
      exact absurd h (by decide +kernel)
    intro a l l' h h'
    cases l <;> cases l'
    · rfl
    · exact (hclash a h h').elim
    · exact (hclash a h' h).elim
    · rfl

theorem acyclic_bridgeSite : bridgeSite.topology.IsAcyclic := incidence_isAcyclic

/-- A host's datagram on the first link, and its copy on the second. -/
def query : Datagram Bool Unit := ⟨false, Quad.inAddr ⟨10, 7, 0, 5⟩, [1], 0, none, [.inl false]⟩

def queryCopy : Datagram Bool Unit :=
  ⟨true, Quad.inAddr ⟨192, 168, 1, 1⟩, [1], 0, some (0, ()), [.inl false, .inr (), .inl true]⟩

/-- The host sends, and the repeater hears the datagram and its own copy. -/
def bridgeLog : List (Event Bool Unit) := [.host false query.src [1], .hear 0 (), .hear 1 ()]

theorem runs_bridgeLog : Runs (Step bridgeSite) HeardOnce [] bridgeLog [query, queryCopy] := by
  have hon : ∀ l, bridgeSite.on () l := by decide +kernel
  have hsend : Step bridgeSite [] (.host false query.src [1]) [query] :=
    .host (by decide +kernel) (by decide +kernel)
  have hcopy : (repeatTo (bridgeSite.config ()) query.src).map (bridgeSite.copy () 0 query) =
      [queryCopy] := by decide +kernel
  have hhear : Step bridgeSite [query] (.hear 0 ()) [query, queryCopy] := by
    rw [← List.singleton_append, ← hcopy]
    exact .hear rfl (hon false)
  have hnone : (repeatTo (bridgeSite.config ()) queryCopy.src).map (bridgeSite.copy () 1 queryCopy) =
      [] := by decide +kernel
  have hagain : Step bridgeSite [query, queryCopy] (.hear 1 ()) [query, queryCopy] := by
    have h : Step bridgeSite [query, queryCopy] (.hear 1 ()) ([query, queryCopy] ++
        (repeatTo (bridgeSite.config ()) queryCopy.src).map (bridgeSite.copy () 1 queryCopy)) :=
      .hear rfl (hon true)
    rwa [hnone] at h
  have h₁ : Runs (Step bridgeSite) HeardOnce [] [.host false query.src [1]] [query] :=
    .step .start (by simp [HeardOnce]) hsend
  have h₂ : Runs (Step bridgeSite) HeardOnce [] [.host false query.src [1], .hear 0 ()]
      [query, queryCopy] := .step h₁ (by simp [HeardOnce]) hhear
  exact .step h₂ (by simp [HeardOnce]) hagain

theorem repeated_on_path_bridge : [query, queryCopy][1]? = some queryCopy ∧
    ∃ o, [query, queryCopy][queryCopy.origin]? = some o ∧ queryCopy.payload = o.payload := by
  obtain ⟨o, ho, -, hp, -⟩ := repeated_on_path addressed_bridgeSite acyclic_bridgeSite runs_bridgeLog
    (i := 1) (d := queryCopy) rfl
  exact ⟨rfl, o, ho, hp⟩

theorem heard_exactly_once_bridge : Runs (Step bridgeSite) HeardOnce [] bridgeLog [query, queryCopy] ∧
    ∃! i : Nat, ∃ d, [query, queryCopy][i]? = some d ∧ d.link = true ∧ d.origin = 0 ∧
      d.payload = query.payload := by
  refine ⟨runs_bridgeLog, heard_exactly_once addressed_bridgeSite acyclic_bridgeSite
    (by decide +kernel) runs_bridgeLog ?_ (n := 0) (o := query) rfl rfl ?_⟩
  · intro i d r hd _
    have hi : i < 2 := (List.getElem?_eq_some_iff.1 hd).1
    interval_cases i
    · simp [bridgeLog]
    · simp [bridgeLog]
  · have hin : bridgeSite.topology.Adj (.inl false) (.inr ()) := incidence_enter (by decide +kernel)
    have hout : bridgeSite.topology.Adj (.inr ()) (.inl true) := incidence_leave (by decide +kernel)
    exact hin.reachable.trans hout.reachable

end Dockerset.MdnsRepeater

import Dockerset.GeoSni.Connect
import Dockerset.Go.Fields

/-!
# Setting up the resolver (`EnsureHostsAndResolv` in `internal/dns/dns.go`)

`EnsureHostsAndResolv` notes the upstream server in `/etc/hosts` under a name of
its own and then makes the local server the only one in `/etc/resolv.conf`. A
later run that finds the name returns the address in front of it and does
nothing else.

The two files are byte strings. Each run comes with what happens to its four file
steps: a step is done, or the run stops in it, with an error or because the
process is killed, after some part of what it was to write.
-/

namespace Dockerset.GeoSni.Resolver
open Go Logic

/-! ## The text of the files -/

def domain : Bytes := ascii "upstream-dns.geo-sni-proxy"

/-- `strings.Split(s, "\n")`. -/
def linesOf (s : Bytes) : List Bytes := s.splitOn lf

/-- The lines that both loops pass over. -/
def skipped (t : Bytes) : Bool := t = [] || (ascii "#").isPrefixOf t

/-- The loop over `/etc/hosts`: the address of the first line with the name. -/
def findDomain : List Bytes → Option Bytes
  | [] => none
  | l :: ls =>
    let t := trimSpaceBytes l
    if skipped t then findDomain ls
    else
      match fields t with
      | [] => findDomain ls
      | address :: names => if names.contains domain then some address else findDomain ls

/-- The line is meant to name a server. -/
def isNameserver (t : Bytes) : Bool := (ascii "nameserver").isPrefixOf t

/-- The loop over `/etc/resolv.conf`: the first server that is not the local one,
or nothing. -/
def findServer : List Bytes → Bytes
  | [] => []
  | l :: ls =>
    let t := trimSpaceBytes l
    if skipped t then findServer ls
    else if isNameserver t then
      match fields t with
      | _ :: ip :: _ =>
        if ip ≠ ascii "127.0.0.1" ∧ ip ≠ ascii "0.0.0.0" then ip else findServer ls
      | _ => findServer ls
    else findServer ls

/-- The upstream server that is found in a `/etc/resolv.conf`. -/
def upstreamOf (resolv : Bytes) : Bytes :=
  if findServer (linesOf resolv) = [] then ascii "8.8.8.8" else findServer (linesOf resolv)

/-- What is appended to `/etc/hosts`. -/
def appendLine (upstream : Bytes) : Bytes := upstream ++ ascii " " ++ domain ++ ascii "\n"

def localLine : Bytes := ascii "nameserver 127.0.0.1"

/-- The loop that replaces the lines with a server; the other ones are kept. -/
def rewriteLine (l : Bytes) : Bytes := if isNameserver (trimSpaceBytes l) then localLine else l

/-- The new `/etc/resolv.conf`. -/
def rewritten (resolv : Bytes) : Bytes :=
  let out := (linesOf resolv).map rewriteLine
  let out := if out = [] then [localLine] else out
  let content := [lf].intercalate out
  if containsBytes content localLine then content else localLine ++ ascii "\n" ++ content

/-! ## Runs -/

structure Files where
  hosts : Bytes
  resolv : Bytes
deriving DecidableEq

/-- How a run ends that does not return an upstream. -/
inductive Stop where
  | error
  | killed
deriving DecidableEq

/-- What happens to a file step. Where the run stops in it, a number says how many
bytes have reached the file that was opened for writing. -/
inductive Outcome where
  | done
  | stops (how : Stop) (written : Option Nat)
deriving DecidableEq

/-- The file steps of a run. -/
structure Faults where
  readHosts : Outcome
  readResolv : Outcome
  append : Outcome
  write : Outcome
deriving DecidableEq

def noFaults : Faults := ⟨.done, .done, .done, .done⟩

abbrev RunM := EStateM Stop Files

/-- `os.ReadFile`. -/
def readFile (o : Outcome) (file : Files → Bytes) : RunM Bytes :=
  match o with
  | .done => return file (← get)
  | .stops how _ => throw how

/-- `os.OpenFile(hosts, os.O_APPEND|os.O_WRONLY, 0644)`, `WriteString` and `Close`. -/
def appendHosts (o : Outcome) (line : Bytes) : RunM Unit :=
  match o with
  | .done => modify fun f => { f with hosts := f.hosts ++ line }
  | .stops how written => do
    modify fun f => { f with hosts := f.hosts ++ line.take (written.getD 0) }
    throw how

/-- `os.WriteFile(resolv, content, 0644)`, which empties the file first. -/
def writeResolv (o : Outcome) (content : Bytes) : RunM Unit :=
  match o with
  | .done => modify fun f => { f with resolv := content }
  | .stops how .none => throw how
  | .stops how (some n) => do
    modify fun f => { f with resolv := content.take n }
    throw how

/-- `EnsureHostsAndResolv()`. -/
def ensureHostsAndResolv (o : Faults) : RunM Bytes := do
  let hb ← readFile o.readHosts Files.hosts
  match findDomain (linesOf hb) with
  | some address => return address
  | none => do
    let rb ← readFile o.readResolv Files.resolv
    let upstream := upstreamOf rb
    appendHosts o.append (appendLine upstream)
    writeResolv o.write (rewritten rb)
    return upstream

/-- The files after a run that came through, where the name was not found. -/
def Files.configured (f : Files) : Files :=
  ⟨f.hosts ++ appendLine (upstreamOf f.resolv), rewritten f.resolv⟩

/-- The name is found. -/
def Files.Marked (f : Files) : Prop := findDomain (linesOf f.hosts) ≠ none

example : after (ensureHostsAndResolv noFaults) ⟨[], ascii "nameserver 1.1.1.1\n"⟩ =
    ⟨ascii "1.1.1.1 upstream-dns.geo-sni-proxy\n", ascii "nameserver 127.0.0.1\n"⟩ := by
  decide +kernel

section

variable {f : Files} {u : Bytes}

theorem ensure_eq (o : Faults) : ensureHostsAndResolv o =
    readFile o.readHosts Files.hosts >>= fun hb =>
    match findDomain (linesOf hb) with
    | some address => pure address
    | none => readFile o.readResolv Files.resolv >>= fun rb =>
      appendHosts o.append (appendLine (upstreamOf rb)) >>= fun _ =>
        writeResolv o.write (rewritten rb) >>= fun _ => pure (upstreamOf rb) := rfl

theorem run_noFaults (f : Files) : (ensureHostsAndResolv noFaults).run f =
    match findDomain (linesOf f.hosts) with
    | some address => .ok address f
    | none => .ok (upstreamOf f.resolv) f.configured := by
  rw [ensure_eq, EStateM.run_bind]
  change (match findDomain (linesOf f.hosts) with
    | some address => (pure address : RunM Bytes)
    | none => _).run f = _
  cases findDomain (linesOf f.hosts) with
  | some address => rfl
  | none => rfl

theorem run_marked (h : findDomain (linesOf f.hosts) = some u) :
    (ensureHostsAndResolv noFaults).run f = .ok u f := by
  rw [run_noFaults, h]

theorem run_unmarked (h : findDomain (linesOf f.hosts) = none) :
    (ensureHostsAndResolv noFaults).run f = .ok (upstreamOf f.resolv) f.configured := by
  rw [run_noFaults, h]

/-- The run does not stop between the first byte it appends to `/etc/hosts` and the
last one it writes to `/etc/resolv.conf`. -/
def Faults.Whole (o : Faults) : Prop :=
  o.append = .done ∧ o.write = .done ∨ ∃ how, o.append = .stops how none

/-- **How a run ends.** It returns the address it has found, or an upstream after
both files are written; a run that does not stop between the two leaves the files
as they were if it does not return. -/
theorem wp_ensure (o : Faults) (f : Files) :
    WP (ensureHostsAndResolv o)
      (fun u f' => findDomain (linesOf f.hosts) = some u ∧ f' = f ∨
        findDomain (linesOf f.hosts) = none ∧ u = upstreamOf f.resolv ∧ f' = f.configured)
      (fun _ f' => o.Whole → f' = f) f := by
  rw [ensure_eq, WP.bind_iff]
  cases hread : o.readHosts with
  | stops how n =>
    intro _
    rfl
  | done =>
    change WP (match findDomain (linesOf f.hosts) with
      | some address => (pure address : RunM Bytes)
      | none => _) _ _ f
    cases hfind : findDomain (linesOf f.hosts) with
    | some address => exact .inl ⟨rfl, rfl⟩
    | none =>
      dsimp only
      rw [WP.bind_iff]
      cases hresolv : o.readResolv with
      | stops how n =>
        intro _
        rfl
      | done =>
        change WP (appendHosts o.append (appendLine (upstreamOf f.resolv)) >>= _) _ _ f
        rw [WP.bind_iff]
        cases happend : o.append with
        | stops how n =>
          rintro (⟨hdone, -⟩ | ⟨how', hstop⟩)
          · rw [happend] at hdone
            cases hdone
          · rw [happend] at hstop
            cases hstop
            simp [appendLine]
        | done =>
          change WP (writeResolv o.write (rewritten f.resolv) >>= _) _ _ _
          rw [WP.bind_iff]
          cases hwrite : o.write with
          | done => exact .inr ⟨rfl, rfl, rfl⟩
          | stops how n =>
            have hnot : ¬ o.Whole := by
              rintro (⟨-, hdone⟩ | ⟨how', hstop⟩)
              · rw [hwrite] at hdone
                cases hdone
              · rw [happend] at hstop
                cases hstop
            cases n with
            | none => exact fun hwhole => absurd hwhole hnot
            | some n => exact fun hwhole => absurd hwhole hnot

end

/-! ## Lines -/

/-- What a line of `/etc/hosts` gives. -/
def hit (l : Bytes) : Option Bytes :=
  match fields l with
  | [] => none
  | address :: names =>
    if (ascii "#").isPrefixOf address then none
    else if names.contains domain then some address else none

theorem skipped_iff {l : Bytes} : skipped (trimSpaceBytes l) = true ↔
    fields l = [] ∨ ∃ a, (fields l).head? = some a ∧ ascii "#" <+: a := by
  rw [skipped, Bool.or_eq_true, decide_eq_true_eq, trimSpaceBytes_eq_nil,
    isPrefixOf_trimSpaceBytes (by decide) (by decide)]

theorem findDomain_cons (l : Bytes) (ls : List Bytes) :
    findDomain (l :: ls) = (hit l).or (findDomain ls) := by
  have hskip : skipped (trimSpaceBytes l) = true ↔ _ := skipped_iff
  rw [findDomain, fields_trimSpaceBytes, hit]
  cases hf : fields l with
  | nil => simp
  | cons a names =>
    rw [hf] at hskip
    by_cases hhash : (ascii "#").isPrefixOf a = true
    · rw [if_pos (hskip.2 (.inr ⟨a, rfl, List.isPrefixOf_iff_prefix.1 hhash⟩))]
      simp [hhash]
    · have hno : ¬ skipped (trimSpaceBytes l) = true := by
        intro hs
        rcases hskip.1 hs with hnil | ⟨a', ha', hpre⟩
        · cases hnil
        · cases ha'
          exact hhash (List.isPrefixOf_iff_prefix.2 hpre)
      rw [if_neg hno]
      by_cases hd : names.contains domain = true
      · simp only [hhash, hd, if_true, Bool.false_eq_true, if_false, Option.some_or]
      · simp only [hhash, hd, Bool.false_eq_true, if_false, Option.none_or]

theorem findDomain_append (a b : List Bytes) :
    findDomain (a ++ b) = (findDomain a).or (findDomain b) := by
  induction a with
  | nil => rfl
  | cons l a ih => rw [List.cons_append, findDomain_cons, findDomain_cons, ih, Option.or_assoc]

/-- The line that an append goes on with. -/
def lastLine (s : Bytes) : Bytes := (linesOf s).getLastD []

theorem linesOf_cases (s : Bytes) : ∃ init, linesOf s = init ++ [lastLine s] ∧
    ∀ t, lf ∉ t → linesOf (s ++ t) = init ++ [lastLine s ++ t] := by
  by_cases hlf : lf ∈ s
  · -- the last line begins behind the last line feed
    obtain ⟨u, v, hrev, hu⟩ := List.eq_append_cons_of_mem (List.mem_reverse.2 hlf)
    have hs : s = v.reverse ++ lf :: u.reverse := by
      rw [← List.reverse_reverse s, hrev]
      simp
    have hu' : lf ∉ u.reverse := by
      rw [List.mem_reverse]
      exact hu
    have hlines : linesOf s = linesOf v.reverse ++ [u.reverse] := by
      unfold linesOf
      rw [hs, List.splitOn_append_cons_self, List.splitOn_eq_singleton hu']
    have hlast : lastLine s = u.reverse := by
      rw [lastLine, hlines, List.getLastD_concat]
    refine ⟨linesOf v.reverse, by rw [hlast, hlines], ?_⟩
    intro t ht
    have hut : lf ∉ u.reverse ++ t := List.not_mem_append hu' ht
    unfold linesOf
    rw [hlast, hs, List.append_assoc, List.cons_append, List.splitOn_append_cons_self,
      List.splitOn_eq_singleton hut]
  · have hlines : linesOf s = [s] := List.splitOn_eq_singleton hlf
    have hlast : lastLine s = s := by
      rw [lastLine, hlines]
      rfl
    refine ⟨[], by rw [hlast, hlines]; rfl, ?_⟩
    intro t ht
    rw [hlast]
    exact List.splitOn_eq_singleton (List.not_mem_append hlf ht)

end Dockerset.GeoSni.Resolver

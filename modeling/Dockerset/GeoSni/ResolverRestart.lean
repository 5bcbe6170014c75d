import Dockerset.GeoSni.Resolver

/-!
# Restarting after the resolver is set up

The first run leaves a line in `/etc/hosts` for the next one to find. It appends
the line without a look at how the file ends: where the last line has no line
feed, the two become one. `stable_iff` says when every later run returns the
upstream of the first one and leaves the files alone, and the lines that were
there still mean the same.
-/

namespace Dockerset.GeoSni.Resolver
open Go Logic

/-- The addresses and names of a line of `/etc/hosts`; a comment runs to its end. -/
def entriesOf (l : Bytes) : List (Bytes × Bytes) :=
  match fields (l.takeWhile (· != 0x23)) with
  | [] => []
  | address :: names => names.map fun name => (address, name)

/-- The lines with something in them still mean what they meant. -/
def KeepsEntries (old new : Bytes) : Prop :=
  ∀ (i : Nat) l, (linesOf old)[i]? = some l → fields l ≠ [] →
    ∃ l', (linesOf new)[i]? = some l' ∧ entriesOf l' = entriesOf l

/-- After a run without faults, all later ones return the same and change nothing,
and what was in `/etc/hosts` has kept its meaning. -/
def Stable (f : Files) : Prop :=
  ∀ u f', (ensureHostsAndResolv noFaults).run f = .ok u f' →
    (∀ n, (ensureHostsAndResolv noFaults).run ((after (ensureHostsAndResolv noFaults))^[n] f') =
      .ok u f') ∧
    KeepsEntries f.hosts f'.hosts

/-- The name is there already; or the upstream server does not look like a comment,
and the last line of `/etc/hosts` is ended or blank, or it has a comment and the
server as its address. -/
def Steady (f : Files) : Prop :=
  f.Marked ∨
  ¬ (ascii "#").isPrefixOf (upstreamOf f.resolv) = true ∧
    (fields (lastLine f.hosts) = [] ∨
      0x23 ∈ lastLine f.hosts ∧
        (fields (lastLine f.hosts ++ upstreamOf f.resolv)).head? = some (upstreamOf f.resolv))

/-! ## The upstream server -/

theorem findServer_eq_nil_or (ls : List Bytes) :
    findServer ls = [] ∨ ∃ l, findServer ls ∈ fields l := by
  induction ls with
  | nil => exact .inl rfl
  | cons l ls ih =>
    rw [findServer]
    split
    · exact ih
    split
    · split
      · next ip rest hf =>
        split
        · refine .inr ⟨trimSpaceBytes l, ?_⟩
          rw [hf]
          simp
        · exact ih
      · exact ih
    · exact ih

theorem upstreamOf_word (resolv : Bytes) :
    upstreamOf resolv ≠ [] ∧ Unbroken spaces (upstreamOf resolv) := by
  unfold upstreamOf
  split
  · exact ⟨by decide, unbroken_of_solid (by decide)⟩
  · next hne =>
    obtain ⟨l, hl⟩ := (findServer_eq_nil_or (linesOf resolv)).resolve_left hne
    exact fields_of_mem hl

theorem not_mem_of_unbroken {w : Bytes} (hw : Unbroken spaces w) : lf ∉ w := by
  intro hmem
  obtain ⟨a, b, rfl⟩ := List.append_of_mem hmem
  have hsep : [lf] ∈ spaces := SpaceByte.mem_spaces (by decide)
  have hnone := hw (lf :: b) (List.suffix_append a (lf :: b))
  have hsome := separators_spaces.find_append hsep b
  rw [List.singleton_append, hnone] at hsome
  cases hsome

theorem domain_word : domain ≠ [] ∧ Unbroken spaces domain :=
  ⟨by decide, unbroken_of_solid (by decide)⟩

/-! ## The line that is appended -/

section

variable {s u : Bytes}

/-- The line with what it was put behind. -/
def grown (last u : Bytes) : Bytes := last ++ (u ++ (ascii " " ++ domain))

theorem fields_grown (last u : Bytes) : fields (grown last u) = fields (last ++ u) ++ [domain] := by
  have hsep : ascii " " ∈ spaces := SpaceByte.mem_spaces (x := 0x20) (by decide)
  rw [grown, ← List.append_assoc, fields_append_sep hsep, fields_word domain_word.1 domain_word.2]

theorem hit_grown (last u : Bytes) :
    hit (grown last u) = some u ↔
      (fields (last ++ u)).head? = some u ∧ ¬ (ascii "#").isPrefixOf u = true := by
  rw [hit, fields_grown]
  cases fields (last ++ u) with
  | nil => simp
  | cons a names =>
    simp only [List.cons_append, List.head?_cons, Option.some.injEq]
    have hmem : (names ++ [domain]).contains domain = true := by simp
    rw [if_pos hmem]
    constructor
    · intro h
      split at h
      · cases h
      · next hhash =>
        cases h
        exact ⟨rfl, hhash⟩
    · rintro ⟨rfl, hhash⟩
      rw [if_neg hhash]

theorem appended_lines (hosts : Bytes) (hu : Unbroken spaces u) : ∃ init,
    linesOf hosts = init ++ [lastLine hosts] ∧
    linesOf (hosts ++ appendLine u) = init ++ [grown (lastLine hosts) u, []] := by
  obtain ⟨init, hlines, hgrow⟩ := linesOf_cases hosts
  refine ⟨init, hlines, ?_⟩
  have hline : lf ∉ u ++ (ascii " " ++ domain) := by
    have hspace : lf ∉ ascii " " := by decide
    apply List.not_mem_append (not_mem_of_unbroken hu)
    exact List.not_mem_append hspace (not_mem_of_unbroken domain_word.2)
  have happend : hosts ++ appendLine u = hosts ++ (u ++ (ascii " " ++ domain)) ++ lf :: [] := by
    simp [appendLine, show ascii "\n" = [lf] by decide]
  have hsplit := hgrow _ hline
  rw [happend]
  unfold linesOf at hsplit ⊢
  rw [List.splitOn_append_cons_self, hsplit, List.splitOn_nil, List.append_assoc]
  rfl

end

/-! ## Later runs -/

section

variable {f : Files}

theorem hit_nil : hit [] = none := rfl

theorem findDomain_configured (h : findDomain (linesOf f.hosts) = none) :
    findDomain (linesOf f.configured.hosts) = hit (grown (lastLine f.hosts) (upstreamOf f.resolv)) ∧
    hit (lastLine f.hosts) = none := by
  obtain ⟨init, hlines, hnew⟩ := appended_lines f.hosts (upstreamOf_word f.resolv).2
  rw [hlines, findDomain_append, Option.or_eq_none_iff, findDomain_cons, Option.or_eq_none_iff] at h
  obtain ⟨hinit, hlast, -⟩ := h
  refine ⟨?_, hlast⟩
  unfold Files.configured
  rw [hnew, findDomain_append, hinit, findDomain_cons, findDomain_cons, hit_nil]
  simp [findDomain]

theorem later_iff {u : Bytes} :
    (∀ n, (ensureHostsAndResolv noFaults).run ((after (ensureHostsAndResolv noFaults))^[n] f) =
      .ok u f) ↔ findDomain (linesOf f.hosts) = some u := by
  constructor
  · intro hall
    have hfirst := hall 0
    rw [Function.iterate_zero, id_eq] at hfirst
    cases hfind : findDomain (linesOf f.hosts) with
    | some a =>
      rw [run_marked hfind] at hfirst
      cases hfirst
      rfl
    | none =>
      -- such a run makes the file longer
      rw [run_unmarked hfind] at hfirst
      obtain ⟨-, hfiles⟩ := EStateM.Result.ok.inj hfirst
      have hlen := congrArg (fun g => g.hosts.length) hfiles
      simp [Files.configured, appendLine, domain, ascii] at hlen
  · intro hfind n
    have hfix : after (ensureHostsAndResolv noFaults) f = f := after_of_ok (run_marked hfind)
    rw [Function.iterate_fixed hfix]
    exact run_marked hfind

/-- Only the last line can change its meaning. -/
theorem keepsEntries_configured : KeepsEntries f.hosts f.configured.hosts ↔
    (fields (lastLine f.hosts) = [] ∨
      entriesOf (grown (lastLine f.hosts) (upstreamOf f.resolv)) =
        entriesOf (lastLine f.hosts)) := by
  obtain ⟨init, hlines, hnew⟩ := appended_lines f.hosts (upstreamOf_word f.resolv).2
  have hlast : (linesOf f.hosts)[init.length]? = some (lastLine f.hosts) := by
    rw [hlines]
    simp
  have hgrown : (linesOf f.configured.hosts)[init.length]? =
      some (grown (lastLine f.hosts) (upstreamOf f.resolv)) := by
    unfold Files.configured
    rw [hnew]
    simp
  constructor
  · intro hkeep
    by_cases hblank : fields (lastLine f.hosts) = []
    · exact .inl hblank
    · obtain ⟨l', hl', heq⟩ := hkeep init.length _ hlast hblank
      rw [hgrown] at hl'
      cases hl'
      exact .inr heq
  · intro h i l hl hne
    rcases Nat.lt_trichotomy i init.length with hlt | rfl | hgt
    · refine ⟨l, ?_, rfl⟩
      unfold Files.configured
      rw [hnew, List.getElem?_append_left hlt]
      rw [hlines, List.getElem?_append_left hlt] at hl
      exact hl
    · rw [hlast] at hl
      cases hl
      exact ⟨_, hgrown, h.resolve_left hne⟩
    · rw [hlines, List.getElem?_eq_none (by simp; omega)] at hl
      cases hl

/-- A comment swallows what is put behind it. -/
theorem entriesOf_grown_of_mem {last u : Bytes} (h : 0x23 ∈ last) :
    entriesOf (grown last u) = entriesOf last := by
  have htake : (grown last u).takeWhile (· != 0x23) = last.takeWhile (· != 0x23) := by
    obtain ⟨a, b, rfl, ha⟩ := List.eq_append_cons_of_mem h
    have hall : ∀ x ∈ a, (x != 0x23) = true := by
      intro x hx
      rw [bne_iff_ne]
      rintro rfl
      exact ha hx
    rw [grown, List.append_assoc, List.takeWhile_append_of_pos hall,
      List.takeWhile_append_of_pos hall]
    simp
  rw [entriesOf, entriesOf, htake]

theorem not_mem_first {last u : Bytes} (hne : fields last ≠ []) (hlast : 0x23 ∉ last)
    (hfirst : (fields (last ++ u)).head? = some u) : 0x23 ∉ u := by
  intro hu
  obtain ⟨b, r, heq, hb, -⟩ := exists_first hfirst
  obtain ⟨u₁, u₂, hsplit, hu₁⟩ := List.eq_append_cons_of_mem hu
  have hb' : 0x23 ∉ b := not_mem_blank (by decide) hb
  -- the first comment sign is at one place only
  have hdel : ∀ a : Bytes, 0x23 ∉ a → Delimited 0x23 (a ++ u₁ ++ [0x23]) := by
    intro a ha
    exact ⟨a ++ u₁, List.not_mem_append ha hu₁, rfl⟩
  have hsame : (last ++ u₁ ++ [0x23]) ++ u₂ = (b ++ u₁ ++ [0x23]) ++ (u₂ ++ r) := by
    rw [hsplit] at heq
    simpa using heq
  obtain ⟨hpre, -⟩ := (hdel last hlast).inj (hdel b hb') hsame
  have hlast' : last = b := List.append_cancel_right (List.append_cancel_right hpre)
  rw [hlast'] at hne
  exact hne hb

theorem entriesOf_of_not_mem {l a : Bytes} {names : List Bytes} (hl : 0x23 ∉ l)
    (hf : fields l = a :: names) : entriesOf l = names.map fun name => (a, name) := by
  have hwhole : l.takeWhile (· != 0x23) = l := by
    rw [List.takeWhile_eq_self_iff]
    intro x hx
    rw [bne_iff_ne]
    rintro rfl
    exact hl hx
  rw [entriesOf, hwhole, hf]

/-- Without a comment, the line has one more entry. -/
theorem mem_of_entriesOf_grown {last u : Bytes} (hne : fields last ≠ [])
    (hfirst : (fields (last ++ u)).head? = some u) (hhash : ¬ (ascii "#").isPrefixOf u = true)
    (hno : hit last = none) (heq : entriesOf (grown last u) = entriesOf last) : 0x23 ∈ last := by
  by_contra hlast
  have hu := not_mem_first hne hlast hfirst
  have hgrown : 0x23 ∉ grown last u := by
    have hrest : 0x23 ∉ ascii " " ++ domain := by decide +kernel
    exact List.not_mem_append hlast (List.not_mem_append hu hrest)
  obtain ⟨names, hf⟩ : ∃ names, fields (last ++ u) = u :: names :=
    ⟨_, List.eq_cons_of_mem_head? hfirst⟩
  obtain ⟨a, old, hl⟩ := List.exists_cons_of_ne_nil hne
  have hf' : fields (grown last u) = u :: (names ++ [domain]) := by
    rw [fields_grown, hf, List.cons_append]
  rw [entriesOf_of_not_mem hgrown hf', entriesOf_of_not_mem hlast hl] at heq
  -- the new entry is one of the old line, so the name had been found
  have hmem : (u, domain) ∈ old.map fun name => (a, name) := by
    rw [← heq]
    simp
  obtain ⟨name, hname, hpair⟩ := List.mem_map.1 hmem
  cases hpair
  rw [hit, hl] at hno
  dsimp only at hno
  rw [if_neg hhash, if_pos (List.contains_iff_mem.2 hname)] at hno
  cases hno

theorem keepsEntries_refl (hosts : Bytes) : KeepsEntries hosts hosts :=
  fun _ l hl _ => ⟨l, hl, rfl⟩

theorem stable_unmarked_iff (h : findDomain (linesOf f.hosts) = none) : Stable f ↔
    ((fields (lastLine f.hosts ++ upstreamOf f.resolv)).head? = some (upstreamOf f.resolv) ∧
      ¬ (ascii "#").isPrefixOf (upstreamOf f.resolv) = true) ∧
    (fields (lastLine f.hosts) = [] ∨
      entriesOf (grown (lastLine f.hosts) (upstreamOf f.resolv)) =
        entriesOf (lastLine f.hosts)) := by
  rw [← hit_grown, ← (findDomain_configured h).1, ← later_iff, ← keepsEntries_configured]
  constructor
  · intro hstable
    exact hstable _ _ (run_unmarked h)
  · intro hboth u f' hrun
    rw [run_unmarked h] at hrun
    cases hrun
    exact hboth

/-- **When the setup is stable across restarts.** -/
theorem stable_iff (f : Files) : Stable f ↔ Steady f := by
  cases hfind : findDomain (linesOf f.hosts) with
  | some a =>
    apply iff_of_true
    · intro u f' hrun
      rw [run_marked hfind] at hrun
      cases hrun
      exact ⟨later_iff.2 hfind, keepsEntries_refl f.hosts⟩
    · left
      rw [Files.Marked, hfind]
      simp
  | none =>
    have hword := upstreamOf_word f.resolv
    obtain ⟨-, hlast⟩ := findDomain_configured hfind
    rw [stable_unmarked_iff hfind]
    unfold Steady Files.Marked
    constructor
    · rintro ⟨⟨hfirst, hhash⟩, hkeep⟩
      refine .inr ⟨hhash, ?_⟩
      by_cases hblank : fields (lastLine f.hosts) = []
      · exact .inl hblank
      · have hsame := hkeep.resolve_left hblank
        exact .inr ⟨mem_of_entriesOf_grown hblank hfirst hhash hlast hsame, hfirst⟩
    · rintro (hmarked | ⟨hhash, hblank | ⟨hcomment, hfirst⟩⟩)
      · exact absurd hfind hmarked
      · refine ⟨⟨?_, hhash⟩, .inl hblank⟩
        rw [fields_blank_append hblank, fields_word hword.1 hword.2]
        rfl
      · exact ⟨⟨hfirst, hhash⟩, .inr (entriesOf_grown_of_mem hcomment)⟩

/-- `/etc/hosts` without a line feed at its end. -/
def unended : Files := ⟨ascii "127.0.0.1 localhost", ascii "nameserver 1.1.1.1\n"⟩

/-- The next run returns the address of the line that the name was put behind. -/
theorem unstable_unended : ¬ Stable unended := by
  intro h
  have hfind : findDomain (linesOf unended.hosts) = none := by decide +kernel
  have hlater := later_iff.1 (h _ _ (run_unmarked hfind)).1
  have hwrong : findDomain (linesOf unended.configured.hosts) = some (ascii "127.0.0.1") := by
    decide +kernel
  rw [hwrong] at hlater
  exact absurd hlater (by decide +kernel)

end

end Dockerset.GeoSni.Resolver

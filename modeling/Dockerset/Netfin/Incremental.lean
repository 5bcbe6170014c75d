import Dockerset.Netfin.Flush

/-!
# Incremental sync refines the full mirror

After a `Reconcile` into an empty destination the source changes, and the pending
set covers the change. If every call that `flushPending` makes returns nil, the
destination mirrors the new source, as a full mirror would have left it, exactly
when the old backup has no impostor for a new file.
-/

namespace Dockerset.Netfin
open Go Os Logic

/-- The destination `t` has exactly the directories and files to be backed up, and
`Stat` of each file's backup reports what it reports in the source. -/
structure Mirrors (S : Tree) (ex : Path → Bool) (t : Tree) : Prop where
  paths : ∀ p, p ≠ [] → (t.Has p ↔ InMirror S ex p)
  files : ∀ p f, Mirrored S ex p → S.get p = some (.file f) → Reports t p f.info

/-- What `Lstat` says about `p`: kind, permission bits, size and modification time. -/
def look (S : Tree) (p : Path) : Option Info := (S.get p).map Node.info

/-- Every path that has changed and is not below an excluded one is pending, or below
a pending tree. -/
def Covers (S S' : Tree) (ex : Path → Bool) (pending : AList fun _ : Path => Bool) : Prop :=
  ∀ p, p ≠ [] → (∀ d, d <+: p → d ≠ p → ex d = false) → look S p ≠ look S' p →
    pending.lookup p ≠ none ∨ ∃ d, d <+: p ∧ pending.lookup d = some true

/-- `p` has changed and is covered, or need not be. -/
def CoveredAt (S S' : Tree) (ex : Path → Bool) (pending : AList fun _ : Path => Bool) (p : Path) : Prop :=
  p ≠ [] → (∀ d ∈ p.inits, d ≠ p → ex d = false) → look S p ≠ look S' p →
    pending.lookup p ≠ none ∨ ∃ d ∈ p.inits, pending.lookup d = some true

instance (S S' : Tree) (ex : Path → Bool) (pending : AList fun _ : Path => Bool) (p : Path) :
    Decidable (CoveredAt S S' ex pending p) :=
  inferInstanceAs (Decidable (_ → _ → _ → _))

instance (S S' : Tree) (ex : Path → Bool) (pending : AList fun _ : Path => Bool) :
    Decidable (Covers S S' ex pending) :=
  decidable_of_iff ((∀ p n, S.get p = some n → CoveredAt S S' ex pending p) ∧
    ∀ p n, S'.get p = some n → CoveredAt S S' ex pending p) <| by
    have hiff : Covers S S' ex pending ↔ ∀ p, CoveredAt S S' ex pending p := by
      simp only [Covers, CoveredAt, List.mem_inits]
    rw [hiff]
    refine ⟨fun h p => ?_, fun h => ⟨fun p _ _ => h p, fun p _ _ => h p⟩⟩
    cases hS : S.get p with
    | some n => exact h.1 p n hS
    | none =>
      cases hS' : S'.get p with
      | some n => exact h.2 p n hS'
      | none =>
        intro _ _ hne
        simp [look, hS, hS'] at hne

/-- The pending paths: `handleEvent` ignores events on the root, and there are no
watches below an excluded directory. -/
structure PendingOk (ex : Path → Bool) (pending : AList fun _ : Path => Bool) : Prop where
  root : ∀ p, pending.lookup p ≠ none → p ≠ []
  above : ∀ p, pending.lookup p ≠ none → ∀ d, d <+: p → d ≠ p → ex d = false

instance (ex : Path → Bool) (pending : AList fun _ : Path => Bool) : Decidable (PendingOk ex pending) :=
  decidable_of_iff (∀ p ∈ pending.keys, p ≠ [] ∧ ∀ d ∈ p.inits, d ≠ p → ex d = false) <| by
    have hmem : ∀ p, p ∈ pending.keys ↔ pending.lookup p ≠ none := fun p => by
      rw [AList.mem_keys_iff_lookup, Option.ne_none_iff_exists']
    simp only [hmem, List.mem_inits]
    exact ⟨fun h => ⟨fun p hp => (h p hp).1, fun p hp => (h p hp).2⟩,
      fun h p hp => ⟨h.root p hp, h.above p hp⟩⟩

section Start

variable {S S' : Tree} {ex : Path → Bool} {t : Tree} {m : StateMap} {p : Path}

theorem Synced.backed (h : Synced S ex t m) : Backed .univ t m where
  root := h.rootState
  holds q st hq _ := by
    have h0 : q ≠ [] := by
      rintro rfl
      rw [h.rootState] at hq
      cases hq
    by_cases hm : InMirror S ex q
    · obtain ⟨n, hn, -⟩ := hm.1.node
      have hk := hm.2
      rw [Tree.kind, hn] at hk
      cases n with
      | dir a =>
        rw [(h.dir q a hm.1 hn).2] at hq
        cases hq
        exact (h.dir q a hm.1 hn).1
      | file f =>
        rw [(h.file q f hm.1 hn).2] at hq
        cases hq
        exact holds_fileState (h.file q f hm.1 hn).1 rfl rfl rfl
      | _ => simp at hk
    · rw [(h.other q h0 hm).2] at hq
      cases hq

theorem Synced.ordinary (h : Synced S ex t m) : Ordinary t := by
  refine ⟨h.root, fun q k hk => ?_⟩
  by_cases h0 : q = []
  · subst h0
    exact .inl (Option.some.inj (hk.symm.trans h.root))
  by_cases hm : InMirror S ex q
  · obtain ⟨n, hn, -⟩ := hm.1.node
    have hkn := hm.2
    rw [Tree.kind, hn] at hkn
    cases n with
    | dir a => exact .inl (Option.some.inj (hk.symm.trans (h.dir q a hm.1 hn).1))
    | file f =>
      rw [Tree.kind, (h.file q f hm.1 hn).1] at hk
      exact .inr (Option.some.inj hk).symm
    | _ => simp at hkn
  · rw [Tree.kind, (h.other q h0 hm).1] at hk
    cases hk

theorem Backed.mono {K K' : Set PathKind} (h : Backed K t m) (hK : K' ⊆ K) : Backed K' t m :=
  ⟨h.root, fun q st hq hk => h.holds q st hq (hK hk)⟩

theorem inMirror_congr (h : look S p = look S' p) : InMirror S ex p ↔ InMirror S' ex p := by
  have hkind : S.kind p = S'.kind p := by
    have := congrArg (Option.map Info.kind) h
    simpa [look, Tree.kind, Function.comp_def] using this
  have hmir : ∀ {S S' : Tree}, S.kind p = S'.kind p → Mirrored S ex p → Mirrored S' ex p := by
    intro S S' hk hm
    obtain ⟨n, hn, hs⟩ := hm.node
    rw [Tree.kind, hn] at hk
    obtain ⟨n', hn', hk'⟩ := Option.map_eq_some_iff.1 hk.symm
    exact ⟨hm.below, hm.ne_root, ⟨n', hn', hk' ▸ hs⟩, hm.kept⟩
  exact ⟨fun hin => ⟨hmir hkind hin.1, hkind ▸ hin.2⟩, fun hin => ⟨hmir hkind.symm hin.1, hkind ▸ hin.2⟩⟩

theorem Settled.congr (h : Settled S ex t p) (hlook : look S p = look S' p) : Settled S' ex t p := by
  by_cases hin' : InMirror S' ex p
  · have hin := (inMirror_congr hlook).2 hin'
    obtain ⟨n, hn, -⟩ := hin.1.node
    obtain ⟨n', hn', -⟩ := hin'.1.node
    have hinfo : n.info = n'.info := by
      rw [look, look, hn, hn'] at hlook
      exact Option.some.inj hlook
    have hk : n.kind = n'.kind := congrArg Info.kind hinfo
    have hdf := hin.2
    rw [Tree.kind, hn] at hdf
    cases n with
    | dir a =>
      obtain ⟨a', rfl⟩ := Node.kind_eq_dir.1 hk.symm
      exact .of_dir (Tree.isDir_iff.2 ⟨a', hn'⟩) hin'.1 (h.dir hin.1 (Tree.isDir_iff.2 ⟨a, hn⟩))
    | file f =>
      obtain ⟨f', rfl⟩ := Node.kind_eq_file.1 hk.symm
      obtain ⟨hr, hx⟩ := h.file f hin.1 hn
      have hsame : f.info = f'.info := hinfo
      exact .of_file hn' hin'.1 (hsame ▸ hr) hx
    | _ => simp at hdf
  · exact .of_gone hin' (h.other fun hin => hin' ((inMirror_congr hlook).1 hin))

/-- Below an excluded path nothing is ever backed up. -/
theorem Settled.excluded {d : Path} (h : Settled S ex t p) (hd : d <+: p) (hex : ex d = true) :
    Settled S' ex t p := by
  have hno : ∀ {S : Tree}, ¬ InMirror S ex p := fun hin => by
    rw [hin.1.kept d List.nil_prefix hd] at hex
    cases hex
  exact .of_gone hno (h.other hno)

theorem Synced.settled (h : Synced S ex t m) (h0 : p ≠ []) : Settled S ex t p := by
  by_cases hin : InMirror S ex p
  · obtain ⟨n, hn, -⟩ := hin.1.node
    have hdf := hin.2
    rw [Tree.kind, hn] at hdf
    cases n with
    | dir a => exact .of_dir (Tree.isDir_iff.2 ⟨a, hn⟩) hin.1 (h.dir p a hin.1 hn).1
    | file f =>
      have hg := (h.file p f hin.1 hn).1
      exact .of_file hn hin.1 (reports_file hg) (not_has_in_file hg)
    | _ => simp at hdf
  · exact .of_gone hin (Tree.not_has_iff.2 (h.other p h0 hin).1)

end Start

/-! ## The loop -/

section Loop

variable {r r' : Run Trees}

theorem wp_tryCall_iff {σ α : Type} {x : EStateM Err σ α} {Q : Except Err α → σ → Prop}
    {E : Err → σ → Prop} {s : σ} :
    WP (tryCall x) Q E s ↔ WP x (fun a => Q (.ok a)) (fun e => Q (.error e)) s := by
  simp only [WP, tryCall, EStateM.run]
  cases x s <;> rfl

theorem flushEntry_eq (e : PendingEntry) : (flushEntry e : SyncM Trees _) = tryCall e.call.exec := by
  unfold flushEntry PendingEntry.call
  split <;> rfl

theorem wp_flushEntries (I : List PendingEntry → Run Trees → Prop) (hplan : ∀ l r, I l r → r.world.plan = [])
    (hstep : ∀ i rest r r', I (i :: rest) r → i.call.exec.run r = .ok () r' → I rest r')
    (l : List PendingEntry) : ∀ r, I l r →
    WP (flushEntries l) (fun rs r' => (∀ x ∈ rs, x = .ok ()) → I [] r') (fun _ _ => True) r := by
  induction l with
  | nil => exact fun r h _ => h
  | cons i rest ih =>
    intro r h
    have hpoll : (liftSys (attempt pollCtx) : SyncM Trees _).run r = .ok (.ok ()) r :=
      liftSys_ok (s := r) (attempt_ok (pollCtx_run (hplan _ r h)))
    rw [flushEntries, WP.bind_iff]
    refine WP.of_ok hpoll ?_
    rw [flushEntry_eq]
    simp only [WP.bind_iff, wp_tryCall_iff, WP.pure_iff]
    cases hrun : i.call.exec.run r with
    | ok u r₁ =>
      refine WP.of_ok hrun ?_
      refine (ih r₁ (hstep i rest r r₁ h hrun)).mono (fun rs r' hrs hall => ?_) fun _ _ h => h
      exact hrs fun x hx => hall x (List.mem_cons_of_mem _ hx)
    | error e r₁ =>
      refine WP.of_error hrun ?_
      refine WP.trivial.mono (fun rs r' _ hall => ?_) fun _ _ h => h
      cases hall _ List.mem_cons_self

variable {i : PendingEntry} {rest : List PendingEntry}

/-- A flush is under way: `l` are the entries that are left. -/
structure Underway (S : Tree) (e : Excluder) (clock : Nat → Time) (l : List PendingEntry)
    (r : Run Trees) : Prop extends r.Idle where
  src : r.src = S
  excluder : r.syncer.excluder = e
  clock : r.world.clock = clock
  apart : l.Pairwise Apart
  entries : ∀ j ∈ l, j.rel ≠ [] ∧ ∀ d, d <+: j.rel → d ≠ j.rel → e.excluded d = false

variable {S : Tree} {e : Excluder} {clock : Nat → Time}

theorem Underway.step (h : Underway S e clock (i :: rest) r) (hend : EntryEnd i r r') :
    Underway S e clock rest r' := by
  have hf := hend.follows
  have hroot := hend.keeps (stepInv_root r.times) (h.entries i List.mem_cons_self).1 h.rootState
  refine ⟨⟨hf.quiet h.toQuiet, hroot⟩, ?_, hf.excluder.trans h.excluder, hf.clock.trans h.clock,
    (List.pairwise_cons.1 h.apart).2, fun j hj => h.entries j (List.mem_cons_of_mem _ hj)⟩
  exact (congrArg Root.tree hf.src).trans h.src

theorem Underway.flush {l : List PendingEntry} {rs : List (Except Err Unit)}
    (hu : Underway S e clock l r) (J : List PendingEntry → Run Trees → Prop) (hj : J l r)
    (hstep : ∀ i rest r r', Underway S e clock (i :: rest) r → J (i :: rest) r → EntryEnd i r r' →
      J rest r')
    (hrun : (flushEntries l).run r = .ok rs r') (hall : ∀ x ∈ rs, x = .ok ()) : J [] r' := by
  refine (WP.ok (wp_flushEntries (fun l r => Underway S e clock l r ∧ J l r) (fun l r h => h.1.plan)
    ?_ l r ⟨hu, hj⟩) hrun hall).2
  rintro i rest r r' ⟨hu, hj⟩ hok
  have hend := entry_ok hu.toIdle (hu.entries i List.mem_cons_self).1 hok
  exact ⟨hu.step hend, hstep i rest r r' hu hj hend⟩

end Loop

/-! ## Both directions -/

section Keep

variable {r r' : Run Trees} {i : PendingEntry} {p : Path} {f : File}

theorem RelEnd.dir_kept {q : Path} (h : RelEnd q r r') (hq : q ≠ [])
    (hp : InMirror r.src r.syncer.excluder.excluded p) (hd : r.dst.IsDir p) : r'.dst.IsDir p := by
  unfold RelEnd at h
  split at h
  · next ho =>
    rcases h with ⟨-, rfl⟩ | ⟨-, t, n, m, rfl, hsw⟩
    · exact hd
    · have hkeep := (hsw.keep p fun d hdq hdp =>
        not_inMirror_of_drop ho hq (hdq ▸ hdp) hp).1
      show t.IsDir p
      rw [Tree.isDir_iff_shape, hkeep, ← Tree.isDir_iff_shape]
      exact hd
  · exact h.elim
  · obtain ⟨t, n, m, rfl, ht⟩ := h
    exact ht.kind (fun hc => by cases hc.1) hd (.inl rfl)

/-- A directory in place of a file to be backed up is never removed. -/
theorem EntryEnd.dir_kept (h : EntryEnd i r r') (hi : i.rel ≠ [])
    (hp : InMirror r.src r.syncer.excluder.excluded p) (hd : r.dst.IsDir p)
    (hm : r.state.lookup [] = none) : r'.dst.IsDir p := by
  unfold EntryEnd TreeEnd at h
  split at h
  · split at h
    · obtain ⟨seen, t₁, m₁, t, n, m, hfull, hsw, rfl⟩ := h
      have hnc : ¬ Cleared r.src true seen p := by
        rintro ⟨y, hy, -, hk, hyp⟩
        have he := Tree.eq_of_leaf hk (by decide) hp.1.has hyp
        rw [he] at hk
        have hk' := hp.2
        rw [hk] at hk'
        simp at hk'
      have hkeep := (hsw.keep p fun d hd' hdp => by
        have h0 : d ≠ [] := fun h0 => hd'.2.2 (h0 ▸ hfull.1.lookup_root hm)
        have hda := hp.1.above List.nil_prefix hdp h0
        exact hd'.2.1 ((hfull.2 d).2 ⟨hd'.1, h0, hda.node, fun x _ hx => hda.kept x List.nil_prefix hx⟩)).1
      show t.IsDir p
      rw [Tree.isDir_iff_shape, hkeep, ← Tree.isDir_iff_shape]
      exact hfull.1.kind hnc hd (.inl rfl)
    · exact RelEnd.dir_kept h hi hp hd
  · exact RelEnd.dir_kept h hi hp hd

end Keep

def pendingEntries (pending : AList fun _ : Path => Bool) : List PendingEntry :=
  pending.entries.map fun e => ⟨e.1, e.2⟩

theorem mem_pendingEntries {pending : AList fun _ : Path => Bool} {e : PendingEntry} :
    e ∈ pendingEntries pending ↔ pending.lookup e.rel = some e.tree := by
  rw [← Option.mem_def, AList.mem_lookup_iff, pendingEntries, List.mem_map]
  constructor
  · rintro ⟨x, hx, rfl⟩
    exact hx
  · exact fun h => ⟨_, h, rfl⟩

def Run.withPending (r : Run Trees) (pending : AList fun _ : Path => Bool) : Run Trees :=
  { r with syncer := { r.syncer with pending := pending } }

theorem flushPending_run (r : Run Trees) : flushPending.run r =
    (flushEntries (collapsePending (pendingEntries r.syncer.pending))).run (r.withPending ∅) := rfl

section

variable {w : World Trees} {patterns : List Str} {r : Run Trees} {S' : Tree}
  {pending : AList fun _ : Path => Bool}

theorem PendingOk.collapsed {ex : Path → Bool} (h : PendingOk ex pending) :
    Collapsed (pendingEntries pending) (collapsePending (pendingEntries pending)) := by
  refine collapsed_collapsePending (fun e he => h.root e.rel ?_) ?_
  · rw [mem_pendingEntries.1 he]
    simp
  · rw [pendingEntries, List.map_map]
    exact pending.nodupKeys

theorem PendingOk.entries {ex : Path → Bool} (h : PendingOk ex pending) {j : PendingEntry}
    (hj : j ∈ collapsePending (pendingEntries pending)) :
    j.rel ≠ [] ∧ ∀ d, d <+: j.rel → d ≠ j.rel → ex d = false := by
  have hmem : pending.lookup j.rel ≠ none := by
    rw [mem_pendingEntries.1 (h.collapsed.mem j hj)]
    simp
  exact ⟨h.root _ hmem, h.above _ hmem⟩

theorem underway_start (S' : Tree) (hst : Started w patterns r)
    (hpend : PendingOk (newExcluder patterns).excluded pending) :
    Underway S' (newExcluder patterns) w.clock (collapsePending (pendingEntries pending))
      (((r.edit S').withPending pending).withPending ∅) where
  toIdle := ⟨⟨hst.plan, hst.tmp, hst.live⟩, hst.rootState⟩
  src := rfl
  excluder := hst.excluder
  clock := hst.clock
  apart := hpend.collapsed.apart
  entries _ hj := hpend.entries hj

theorem halfway_start {S : Tree} {ex : Path → Bool} {t : Tree} {m : StateMap} (ht : Tracked t m)
    (hb : Backed .univ t m) (hs : ∀ p, p ≠ [] → Settled S ex t p) (hpend : PendingOk ex pending)
    (hcov : Covers S S' ex pending) :
    Halfway S' ex t m (collapsePending (pendingEntries pending)) t m where
  tracked := ht
  dirs := hb.mono (Set.subset_univ _)
  new _ hx := .inl hx
  status p h0 := by
    by_cases hwait : ∃ j ∈ collapsePending (pendingEntries pending), Handles j p
    · exact .inr ⟨hwait, rfl, rfl⟩
    refine .inl ?_
    by_cases hex : ∀ d, d <+: p → d ≠ p → ex d = false
    · refine (hs p h0).congr (by_contra fun hne => hwait ?_)
      rcases hcov p h0 hex hne with hp | ⟨d, hd, hp⟩
      · obtain ⟨tree, htree⟩ := Option.ne_none_iff_exists'.1 hp
        exact hpend.collapsed.handled ⟨p, tree⟩ (mem_pendingEntries.2 htree) p (.inl rfl)
      · exact hpend.collapsed.handled ⟨d, true⟩ (mem_pendingEntries.2 hp) p (.inr ⟨rfl, hd⟩)
    · push Not at hex
      obtain ⟨d, hd, -, hed⟩ := hex
      exact (hs p h0).excluded hd (by simpa using hed)

theorem Halfway.mirrors {S : Tree} {ex : Path → Bool} {D t : Tree} {M m : StateMap}
    (h : Halfway S ex D M [] t m) : Mirrors S ex t := by
  have hs : ∀ p, p ≠ [] → Settled S ex t p := fun p h0 => (h.status p h0).resolve_right (by simp)
  refine ⟨fun p h0 => ⟨fun ht => by_contra fun hno => (hs p h0).other hno ht, fun hin => ?_⟩,
    fun p f hm hf => ((hs p hm.ne_root).file f hm hf).1⟩
  rcases hin.2 with hk | hk
  · exact ((hs p h0).dir hin.1 hk).has
  · obtain ⟨n, hn, hkind⟩ := Option.map_eq_some_iff.1 hk
    obtain ⟨f, rfl⟩ := Node.kind_eq_file.1 hkind
    obtain ⟨n', hn', -⟩ := reports_iff.1 ((hs p h0).file f hin.1 hn).1
    exact Tree.has_of_get hn'

/-- **A flush without errors leaves the mirror of the new source** if the old backup
has no impostor, and, when no directory is ever stamped with a file's modification
time, only then. -/
theorem flush_mirrors {rs : List (Except Err Unit)} {r' : Run Trees} (hw : Plain w)
    (hempty : EmptyDir w.dstTree) (hfirst : reconcile.run (freshRun w patterns) = .ok () r)
    (hpend : PendingOk (newExcluder patterns).excluded pending)
    (hcov : Covers w.srcTree S' (newExcluder patterns).excluded pending)
    (hflush : flushPending.run ((r.edit S').withPending pending) = .ok rs r')
    (hnil : ∀ x ∈ rs, x = .ok ()) :
    (NoImpostor S' (newExcluder patterns).excluded r.dst →
      Mirrors S' (newExcluder patterns).excluded r'.dst) ∧
    ((∀ p f n, S'.get p = some (.file f) → w.clock n ≠ f.mtime) →
      Mirrors S' (newExcluder patterns).excluded r'.dst →
      NoImpostor S' (newExcluder patterns).excluded r.dst) := by
  have hst := started_of_first hw hempty hfirst
  have hsy := synced_of_first hw hempty hfirst
  have hu := underway_start S' hst hpend
  rw [flushPending_run] at hflush
  constructor
  · intro hno
    have hD : Basis S' (newExcluder patterns).excluded r.dst r.state := ⟨hsy.backed, hsy.ordinary, hno⟩
    refine Halfway.mirrors (hu.flush (fun l r₁ => Halfway S' (newExcluder patterns).excluded r.dst
      r.state l r₁.dst r₁.state) 
      (halfway_start hsy.tracked hsy.backed (fun _ => hsy.settled) hpend hcov) ?_ hflush hnil)
    intro i rest r₁ r₂ hu₁ hh hend
    obtain ⟨hi, hex⟩ := hu₁.entries i List.mem_cons_self
    have hap := (List.pairwise_cons.1 hu₁.apart).1
    rw [← hu₁.src, ← hu₁.excluder] at hD hh ⊢
    rw [← hu₁.excluder] at hex
    exact hh.entry hD hap hi hex hend
  · intro hclock hmir p f a hp hf ha _ x hx
    have hin : InMirror S' (newExcluder patterns).excluded p :=
      ⟨hp, .inr (Tree.kind_of_get hf)⟩
    have hkeep := hu.flush (fun _ r₁ => r₁.dst.IsDir p ∧
      Tree.Stamped (Set.range w.clock) r.dst r₁.dst) ⟨Tree.isDir_iff.2 ⟨a, ha⟩, .refl _ _⟩ ?_ hflush hnil
    · obtain ⟨a', ha'⟩ := Tree.isDir_iff.1 hkeep.1
      obtain ⟨n, hn, -, -, -, hmtime⟩ := reports_iff.1 (hmir.files p f hp hf)
      rw [ha'] at hn
      cases hn
      rcases hkeep.2 p a' ha' with ⟨k, hk⟩ | ⟨-, hsame⟩
      · exact hclock p f k hf (hk.trans hmtime)
      · -- nothing was removed from the directory, but nothing below a file is mirrored
        have hin' := (hmir.paths (p ++ [x]) (by simp)).1 ((hsame x).2 hx)
        exact not_has_in_file hf x hin'.1.has
    · intro i rest r₁ r₂ hu₁ hh hend
      have hi := (hu₁.entries i List.mem_cons_self).1
      have htimes : r₁.times = Set.range w.clock := by rw [Run.times, hu₁.clock]
      have hst₁ := hend.keeps (stepInv_stamped r₁.times r.dst) hi (htimes ▸ hh.2)
      rw [← hu₁.src, ← hu₁.excluder] at hin
      exact ⟨hend.dir_kept hi hin hh.1 hu₁.rootState, htimes ▸ hst₁⟩

end

/-- The flush from `r` makes no call that fails. -/
def flushesClean (r : Run Trees) : Bool :=
  match flushPending.run r with
  | .ok rs _ => rs.all Except.isOk
  | .error _ _ => false

theorem run_of_flushesClean {r : Run Trees} (h : flushesClean r = true) :
    ∃ rs, flushPending.run r = .ok rs (after flushPending r) ∧ ∀ x ∈ rs, x = .ok () := by
  unfold flushesClean at h
  cases hrun : flushPending.run r with
  | error e r' =>
    rw [hrun] at h
    cases h
  | ok rs r' =>
    rw [hrun] at h
    refine ⟨rs, by rw [after_of_ok hrun], fun x hx => ?_⟩
    have hok := List.all_eq_true.1 h x hx
    cases x with
    | ok u => rfl
    | error e => cases hok

/-- A directory `a` with a file `x` in it, and an empty destination. -/
def treeWorld : World Trees :=
  .still
    (.ofList [([], .dir ⟨0o755, 4096, 1⟩), ([nameA], .dir ⟨0o755, 4096, 2⟩),
      ([nameA, nameX], .file ⟨0o644, 3, [1]⟩)])
    (.ofList [([], .dir ⟨0o755, 4096, 1⟩)])
    fun n => 100 + n

/-- A file `a` with the permission bits, size and modification time that the backup of
the directory `a` reports. -/
def fileForTree : Tree :=
  .ofList [([], .dir ⟨0o755, 4096, 1⟩), ([nameA], .file ⟨0o755, 103, List.replicate 4096 0⟩)]

/-- The flush of the pending tree `a` returns no error and leaves the old directory with
the file `x` in place of the new file. -/
theorem flush_keeps_impostor : Plain treeWorld ∧ EmptyDir treeWorld.dstTree ∧
    ∃ r rs r', reconcile.run (freshRun treeWorld []) = .ok () r ∧
      PendingOk (newExcluder []).excluded (AList.singleton [nameA] true) ∧
      Covers treeWorld.srcTree fileForTree (newExcluder []).excluded (AList.singleton [nameA] true) ∧
      flushPending.run ((r.edit fileForTree).withPending (AList.singleton [nameA] true)) = .ok rs r' ∧
      (∀ x ∈ rs, x = .ok ()) ∧ ¬ Mirrors fileForTree (newExcluder []).excluded r'.dst := by
  let r := after reconcile (freshRun treeWorld [])
  let r₁ := (r.edit fileForTree).withPending (AList.singleton [nameA] true)
  have h := ok_of_returns reconcile (freshRun treeWorld []) (by decide +kernel)
  obtain ⟨rs, hrun, hall⟩ := run_of_flushesClean (r := r₁) (by decide +kernel)
  have hstill : (after flushPending r₁).dst.Has [nameA, nameX] := by decide +kernel
  have hno : ¬ InMirror fileForTree (newExcluder []).excluded [nameA, nameX] := by decide +kernel
  refine ⟨⟨rfl, rfl, rfl, rfl, by decide +kernel⟩, by decide +kernel, r, rs, _, h, by decide +kernel,
    by decide +kernel, hrun, hall, fun hm => hno ?_⟩
  exact (hm.paths [nameA, nameX] (by decide)).1 hstill

/-- The file `x` is rewritten and a file `b` added. -/
def treeWorldGrown : Tree :=
  .ofList [([], .dir ⟨0o755, 4096, 5⟩), ([nameA], .dir ⟨0o755, 4096, 5⟩),
    ([nameA, nameX], .file ⟨0o644, 6, [2, 3]⟩), ([nameB], .file ⟨0o600, 4, [7]⟩)]

def pendingGrown : AList fun _ : Path => Bool := AList.insert [nameB] false (AList.singleton [nameA] true)

theorem flush_mirrors_grown : ∃ r rs r', reconcile.run (freshRun treeWorld []) = .ok () r ∧
    flushPending.run ((r.edit treeWorldGrown).withPending pendingGrown) = .ok rs r' ∧
    Mirrors treeWorldGrown (newExcluder []).excluded r'.dst := by
  let r := after reconcile (freshRun treeWorld [])
  let r₁ := (r.edit treeWorldGrown).withPending pendingGrown
  have h := ok_of_returns reconcile (freshRun treeWorld []) (by decide +kernel)
  obtain ⟨rs, hrun, hall⟩ := run_of_flushesClean (r := r₁) (by decide +kernel)
  have hw : Plain treeWorld := ⟨rfl, rfl, rfl, rfl, by decide +kernel⟩
  have hpend : PendingOk (newExcluder []).excluded pendingGrown := by decide +kernel
  have hcov : Covers treeWorld.srcTree treeWorldGrown (newExcluder []).excluded pendingGrown := by
    decide +kernel
  have hboth := flush_mirrors hw (by decide +kernel) h hpend hcov hrun hall
  exact ⟨r, rs, _, h, hrun, hboth.1 (by decide +kernel)⟩

end Dockerset.Netfin

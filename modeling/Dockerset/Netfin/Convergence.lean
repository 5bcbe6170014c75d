import Dockerset.Logic.Runs
import Dockerset.Netfin.Incremental

/-!
# The backup follows the source

The source is edited, the pending entries are flushed; it is edited again, and
this time `Reconcile` comes first; and so on. As long as every call returns nil
the backup is the mirror of the source after each round, however the rounds are
mixed: a flush or a light `Reconcile` does not need a fresh start, only what the
round before it has left (`InSync`).

What has to be carried from round to round is more than the mirror. A later round
trusts the state map (`Tracked`, `Backed`), and it takes the metadata of a file
for the file, so that no directory of the backup may ever report the metadata of
a file of the source. Directories of the backup have the times at which they were
written to (`Timed`), which is why the files' times must be other ones.
-/

namespace Dockerset.Netfin
open Go Os Logic

/-- Every directory below the root has a time of `T`. -/
def Timed (T : Set Time) (t : Tree) : Prop :=
  ∀ p a, p ≠ [] → t.get p = some (.dir a) → a.mtime ∈ T

/-- No file has a time of `T`. -/
def Untimed (T : Set Time) (S : Tree) : Prop :=
  ∀ p f, S.get p = some (.file f) → f.mtime ∉ T

/-- What a round leaves, and the next one needs. -/
structure InSync (T : Set Time) (S : Tree) (ex : Path → Bool) (t : Tree) (m : StateMap) : Prop where
  tracked : Tracked t m
  backed : Backed .univ t m
  timed : Timed T t
  settled : ∀ p, p ≠ [] → Settled S ex t p

section Facts

variable {S S' t t' : Tree} {ex : Path → Bool} {m m' : StateMap} {T : Set Time} {p : Path}

theorem Timed.stamped (h : Timed T t) (hs : Tree.Stamped T t t') : Timed T t' := by
  intro p a h0 ha
  rcases hs p a ha with hT | ⟨hsame, -⟩
  · exact hT
  · exact h p a h0 hsame

theorem stepInv_timed (T : Set Time) : StepInv T Unasked fun t _ => Timed T t where
  touch ht _ _ h := h.stamped ht.stamped
  swept hs h := h.stamped hs.stamped

/-- A backup that the state map knows has directories and regular files only. -/
theorem Tracked.ordinary (h : Tracked t m) (hb : Backed .univ t m) : Ordinary t := by
  refine ⟨h.root, fun p k hk => ?_⟩
  by_cases h0 : p = []
  · subst h0
    exact .inl (Option.some.inj (hk.symm.trans h.root))
  have hhas : t.Has p := by
    obtain ⟨n, hn, -⟩ := Option.map_eq_some_iff.1 hk
    exact Tree.has_of_get hn
  obtain ⟨st, hst⟩ := Option.ne_none_iff_exists'.1 ((h.iff p h0).1 hhas)
  have hholds := hb.holds p st hst trivial
  unfold Holds at hholds
  split at hholds
  · exact .inl (Option.some.inj (hk.symm.trans hholds))
  · obtain ⟨f, hf, -⟩ := hholds
    exact .inr (Option.some.inj (hk.symm.trans (Tree.kind_of_get hf)))

/-- In such a backup only a regular file passes for the backup of a file. -/
theorem genuine_of_timed (ho : Ordinary t) (hd : Timed T t) (hS : Untimed T S) (h0 : p ≠ []) :
    Genuine S p t := by
  intro f hf hr
  obtain ⟨n, hn, -, -, -, hmtime⟩ := reports_iff.1 hr
  have hk : t.kind p = some n.kind := Tree.kind_of_get hn
  rcases ho.2 p n.kind hk with hdir | hfile
  · obtain ⟨a, rfl⟩ := Node.kind_eq_dir.1 hdir
    have htime : a.mtime = f.mtime := hmtime
    exact absurd (htime ▸ hd p a h0 hn) (hS p f hf)
  · exact hfile ▸ hk

theorem noImpostor_of_timed (hd : Timed T t) (hS : Untimed T S) : NoImpostor S ex t := by
  intro p f a hm hf ha hpass
  exact absurd (hpass.2.2 ▸ hd p a hm.ne_root ha) (hS p f hf)

theorem InSync.mirrors (h : InSync T S ex t m) : Mirrors S ex t :=
  Halfway.mirrors (D := t) (M := m) ⟨h.tracked, h.backed.mono (Set.subset_univ _),
    fun _ hx => .inl hx, fun p h0 => .inl (h.settled p h0)⟩

end Facts

/-! ## A round that flushes -/

section Flush

variable {S S' : Tree} {ex : Path → Bool} {T : Set Time} {r r' : Run Trees} {i : PendingEntry}
  {pending : AList fun _ : Path => Bool}

theorem EntryEnd.backed (hend : EntryEnd i r r') (hi : i.rel ≠ []) (ht : Tracked r.dst r.state)
    (hb : Backed .univ r.dst r.state) (hd : Timed T r.dst) (hS : Untimed T r.src) :
    Backed .univ r'.dst r'.state := by
  have hgen : ∀ q t, q ≠ [] → t.get q = r.dst.get q → Genuine r.src q t := by
    intro q t h0 hget f hf hr
    rw [Tree.kind, hget]
    exact genuine_of_timed (ht.ordinary hb) hd hS h0 f hf (hr.congr hget.symm)
  unfold EntryEnd at hend
  split at hend
  · exact (stepInv_backed r.times .univ).under.treeEnd hend hi
      (fun q t hq hget => hgen q t hq.ne_root hget) hb
  · exact (stepInv_backed r.times .univ).under.relEnd hend hi (fun hq => hgen _ _ hq.ne_root rfl) hb

end Flush

/-! ## Rounds -/

/-- The syncer between two rounds. -/
structure Resting (clock : Nat → Time) (e : Excluder) (r : Run Trees) : Prop extends r.Idle where
  src : r.world.disk.src.link = none
  dst : r.world.disk.dst.link = none
  excluder : r.syncer.excluder = e
  inSync : InSync (Set.range clock) r.src e.excluded r.dst r.state
  clock : r.world.clock = clock

/-- One round: the source has become `S`, and either a flush of pending entries that
cover the change or a `Reconcile` brings the backup up to date. -/
inductive Round (e : Excluder) (r : Run Trees) (S : Tree) : Run Trees → Prop
  | flush {pending : AList fun _ : Path => Bool} {rs : List (Except Err Unit)} {r' : Run Trees}
      (hpend : PendingOk e.excluded pending) (hcov : Covers r.src S e.excluded pending)
      (hrun : flushPending.run ((r.edit S).withPending pending) = .ok rs r')
      (hnil : ∀ x ∈ rs, x = .ok ()) : Round e r S r'
  | reconcile {r' : Run Trees} (hplain : ∀ p, S.kind p ≠ some .special)
      (hrun : reconcile.run (r.edit S) = .ok () r') : Round e r S r'

section Rounds

variable {clock : Nat → Time} {e : Excluder} {r r' : Run Trees} {S : Tree}

theorem Resting.flush {pending : AList fun _ : Path => Bool} {rs : List (Except Err Unit)}
    (h : Resting clock e r) (hS : Untimed (Set.range clock) S) (hpend : PendingOk e.excluded pending)
    (hcov : Covers r.src S e.excluded pending)
    (hrun : flushPending.run ((r.edit S).withPending pending) = .ok rs r')
    (hnil : ∀ x ∈ rs, x = .ok ()) : Resting clock e r' ∧ r'.src = S := by
  have hD : Basis S e.excluded r.dst r.state :=
    ⟨h.inSync.backed, h.inSync.tracked.ordinary h.inSync.backed, noImpostor_of_timed h.inSync.timed hS⟩
  have hu : Underway S e clock (collapsePending (pendingEntries pending))
      (((r.edit S).withPending pending).withPending ∅) :=
    ⟨⟨⟨h.plan, h.tmp, h.live⟩, h.rootState⟩, rfl, h.excluder, h.clock, hpend.collapsed.apart,
      fun _ => hpend.entries⟩
  have hstart := halfway_start h.inSync.tracked h.inSync.backed h.inSync.settled hpend hcov
  rw [flushPending_run] at hrun
  -- the entries that are left are part of the invariant, so that the end has none
  let J : List PendingEntry → Run Trees → Prop := fun l r₁ =>
    Underway S e clock l r₁ ∧ Halfway S e.excluded r.dst r.state l r₁.dst r₁.state ∧
      Backed .univ r₁.dst r₁.state ∧ Timed (Set.range clock) r₁.dst ∧
      r₁.world.disk.src.link = none ∧ r₁.world.disk.dst.link = none
  have hend : J [] r' := by
    refine hu.flush J ⟨hu, hstart, h.inSync.backed, h.inSync.timed, h.src, h.dst⟩
      ?_ hrun hnil
    rintro i rest r₁ r₂ hu₁ ⟨-, hh, hb, hd, hsrc, hdst⟩ hend
    obtain ⟨hi, hex⟩ := hu₁.entries i List.mem_cons_self
    have hap := (List.pairwise_cons.1 hu₁.apart).1
    have hf := hend.follows
    have htimes : r₁.times = Set.range clock := by rw [Run.times, hu₁.clock]
    have hS₁ : Untimed (Set.range clock) r₁.src := by rwa [hu₁.src]
    have hd₂ : Timed r₁.times r₂.dst := hend.keeps (stepInv_timed r₁.times) hi (htimes ▸ hd)
    refine ⟨hu₁.step hend, ?_, hend.backed hi hh.tracked hb hd hS₁, htimes ▸ hd₂, ?_, ?_⟩
    · rw [← hu₁.src, ← hu₁.excluder] at hD hh ⊢
      rw [← hu₁.excluder] at hex
      exact hh.entry hD hap hi hex hend
    · rw [hf.src, hsrc]
    · rw [hf.dstLink, hdst]
  obtain ⟨hu', hh, hb, hd, hsrc, hdst⟩ := hend
  refine ⟨⟨hu'.toIdle, hsrc, hdst, hu'.excluder, ?_, hu'.clock⟩, hu'.src⟩
  rw [hu'.src]
  exact ⟨hh.tracked, hb, hd, fun p h0 => (hh.status p h0).resolve_right (by simp)⟩

theorem Resting.reconcile (h : Resting clock e r) (hS : Untimed (Set.range clock) S)
    (hplain : ∀ p, S.kind p ≠ some .special) (hrun : reconcile.run (r.edit S) = .ok () r') :
    Resting clock e r' ∧ r'.src = S := by
  have hidle : (r.edit S).Idle := h.toIdle.edit
  have hend : ReconcileEnd (r.edit S) r' := hidle.reconcile.ok hrun
  have hcall : CallEnd (r.edit S) r' .reconcile := hend
  have hf : Follows (r.edit S) r' := hcall.follows
  have hwalked : (r.edit S).walked = S := Run.walked_eq_src h.src
  have htimes : (r.edit S).times = Set.range clock := by rw [Run.edit_times, Run.times, h.clock]
  have hord := h.inSync.tracked.ordinary h.inSync.backed
  have hb : Backed .univ r'.dst r'.state := by
    refine (stepInv_backed _ .univ).under.callEnd hcall (fun q t hq hget => ?_) h.inSync.backed
    intro f hf hr
    rw [Tree.kind, hget]
    exact genuine_of_timed hord h.inSync.timed hS hq.ne_root f hf (hr.congr hget.symm)
  have hd : Timed (r.edit S).times r'.dst :=
    (stepInv_timed (r.edit S).times).under.callEnd hcall (fun _ _ _ _ => trivial)
      (htimes ▸ h.inSync.timed)
  have ht : Tracked r'.dst r'.state := hend.tracked h.inSync.tracked h.dst
  have hsrc : r'.src = S := congrArg Root.tree hf.src
  have hex : (r.edit S).syncer.excluder = e := h.excluder
  have hset : ∀ p, p ≠ [] → Settled S e.excluded r'.dst p := by
    intro p h0
    have hhas := hend.has_iff h.inSync.tracked h.dst p
    rw [hwalked, hex] at hhas
    by_cases hm : Mirrored S e.excluded p
    · have hreach : Reach (r.edit S).walked (r.edit S).syncer.excluder.excluded [] p := by
        rw [hwalked, hex]
        exact hm
      obtain ⟨n, hn, hk⟩ := hm.node
      cases n with
      | dir a =>
        have hl := hend.lookup_dir hidle.rootState hreach (hwalked.symm ▸ hn)
        exact .of_dir (Tree.isDir_iff.2 ⟨a, hn⟩) hm (hb.holds p _ hl trivial)
      | file f =>
        have hl := hend.lookup_file hidle.rootState hreach (hwalked.symm ▸ hn)
        obtain ⟨g, hg, h1, h2, h3⟩ := hb.holds p _ hl trivial
        exact .of_file hn hm (reports_iff.2 ⟨_, hg, by simp, h1, h2, h3⟩) (not_has_in_file hg)
      | symlink a => exact absurd rfl hk
      | special a => exact absurd (Tree.kind_of_get hn) (hplain p)
    · refine .of_gone (fun hin => hm hin.1) fun hh => ?_
      rcases hhas.1 hh with hnil | hin
      · exact h0 hnil
      · exact hm hin.1
  refine ⟨⟨⟨hf.quiet hidle.toQuiet, ht.rootState⟩, ?_, ?_, hf.excluder.trans hex, ?_,
    hf.clock.trans h.clock⟩, hsrc⟩
  · rw [hf.src]
    exact h.src
  · rw [hf.dstLink]
    exact h.dst
  · rw [hsrc]
    exact ⟨ht, hb, htimes ▸ hd, hset⟩

theorem Resting.round (h : Resting clock e r) (hS : Untimed (Set.range clock) S) (hr : Round e r S r') :
    Resting clock e r' ∧ r'.src = S := by
  cases hr with
  | flush hpend hcov hrun hnil => exact h.flush hS hpend hcov hrun hnil
  | reconcile hplain hrun => exact h.reconcile hS hplain hrun

theorem resting_of_first {w : World Trees} {patterns : List Str} (hw : Plain w)
    (hempty : EmptyDir w.dstTree) (hfirst : Netfin.reconcile.run (freshRun w patterns) = .ok () r) :
    Resting w.clock (newExcluder patterns) r ∧ r.src = w.srcTree := by
  have hst := started_of_first hw hempty hfirst
  have hsy := synced_of_first hw hempty hfirst
  have hidle : (freshRun w patterns).Idle := ⟨hw.quiet patterns, rfl⟩
  have hcall : CallEnd (freshRun w patterns) r .reconcile := hidle.reconcile.ok hfirst
  have hsrc : r.src = w.srcTree := congrArg Root.tree hcall.follows.src
  have htimed₀ : Timed (Set.range w.clock) (freshRun w patterns).dst := by
    intro p a h0 ha
    have hnone := hempty.get h0
    cases hnone.symm.trans ha
  have htimed : Timed (Set.range w.clock) r.dst :=
    (stepInv_timed (Set.range w.clock)).under.callEnd hcall (fun _ _ _ _ => trivial) htimed₀
  refine ⟨⟨hst.toIdle, hst.src, hst.dst, hst.excluder, ?_, hst.clock⟩, hsrc⟩
  rw [hsrc]
  exact ⟨hsy.tracked, hsy.backed, htimed, fun _ => hsy.settled⟩

/-- **The backup follows the source.** After the first `Reconcile`, into an empty
directory, and any number of rounds without errors, the backup mirrors the source as
the last round found it, and the state map remembers exactly what the backup has. -/
theorem rounds_mirror {w : World Trees} {patterns : List Str} {r₀ : Run Trees} {edits : List Tree}
    (hw : Plain w) (hempty : EmptyDir w.dstTree)
    (hfirst : Netfin.reconcile.run (freshRun w patterns) = .ok () r₀)
    (hrun : Runs (Round (newExcluder patterns)) (fun _ S => Untimed (Set.range w.clock) S) r₀ edits r) :
    r.src = edits.getLastD w.srcTree ∧ Mirrors r.src (newExcluder patterns).excluded r.dst ∧
      Tracked r.dst r.state := by
  have hinv := hrun.inv (fun edits r => Resting w.clock (newExcluder patterns) r ∧
    r.src = edits.getLastD w.srcTree) (resting_of_first hw hempty hfirst) ?_
  · exact ⟨hinv.2, hinv.1.inSync.mirrors, hinv.1.inSync.tracked⟩
  · rintro edits r S r' ⟨hrest, -⟩ hS hround
    obtain ⟨hrest', hsrc⟩ := hrest.round hS hround
    refine ⟨hrest', ?_⟩
    rw [hsrc, List.getLastD_concat]

end Rounds

/-- The directory `a` is gone and the file `b` has grown. -/
def treeWorldPruned : Tree :=
  .ofList [([], .dir ⟨0o755, 4096, 9⟩), ([nameB], .file ⟨0o600, 8, [7, 7]⟩)]

theorem untimed_of_lt {S : Tree} (h : ∀ p n, S.get p = some n → n.info.mtime < 100) :
    Untimed (Set.range treeWorld.clock) S := by
  rintro p f hf ⟨k, hk⟩
  have hlt : f.mtime < 100 := h p _ hf
  have hge : 100 + (k : Int) = f.mtime := hk
  exact absurd hlt (not_lt.2 (hge ▸ Int.le_add_of_nonneg_right (Int.natCast_nonneg k)))

/-- A flush of what was added, then a `Reconcile` after what was removed. -/
theorem rounds_mirror_treeWorld : ∃ r₀ r, reconcile.run (freshRun treeWorld []) = .ok () r₀ ∧
    Runs (Round (newExcluder [])) (fun _ S => Untimed (Set.range treeWorld.clock) S) r₀
      [treeWorldGrown, treeWorldPruned] r ∧
    Mirrors treeWorldPruned (newExcluder []).excluded r.dst := by
  let r₀ := after reconcile (freshRun treeWorld [])
  let e₁ := (r₀.edit treeWorldGrown).withPending pendingGrown
  let r₁ := after flushPending e₁
  let r₂ := after reconcile (r₁.edit treeWorldPruned)
  have h₀ := ok_of_returns reconcile (freshRun treeWorld []) (by decide +kernel)
  obtain ⟨rs, h₁, hall⟩ := run_of_flushesClean (r := e₁) (by decide +kernel)
  have h₂ := ok_of_returns reconcile (r₁.edit treeWorldPruned) (by decide +kernel)
  have hw : Plain treeWorld := ⟨rfl, rfl, rfl, rfl, by decide +kernel⟩
  have hcov : Covers r₀.src treeWorldGrown (newExcluder []).excluded pendingGrown := by decide +kernel
  have hplain : ∀ p, treeWorldPruned.kind p ≠ some .special := by
    intro p hk
    obtain ⟨n, hn, hkind⟩ := Option.map_eq_some_iff.1 hk
    have hall : ∀ p n, treeWorldPruned.get p = some n → n.kind ≠ .special := by decide +kernel
    exact hall p n hn hkind
  have hround₁ : Round (newExcluder []) r₀ treeWorldGrown r₁ :=
    .flush (by decide +kernel) hcov h₁ hall
  have hround₂ : Round (newExcluder []) r₁ treeWorldPruned r₂ := .reconcile hplain h₂
  have hrun : Runs (Round (newExcluder [])) (fun _ S => Untimed (Set.range treeWorld.clock) S) r₀
      [treeWorldGrown, treeWorldPruned] r₂ :=
    .step (.step .start (untimed_of_lt (by decide +kernel)) hround₁)
      (untimed_of_lt (by decide +kernel)) hround₂
  obtain ⟨hsrc, hmir, -⟩ := rounds_mirror hw (by decide +kernel) h₀ hrun
  rw [hsrc] at hmir
  exact ⟨r₀, r₂, h₀, hrun, hmir⟩

end Dockerset.Netfin

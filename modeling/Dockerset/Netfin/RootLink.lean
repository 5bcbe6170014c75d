import Dockerset.Netfin.DeepReconcile
import Dockerset.Netfin.Restore
import Dockerset.Netfin.StepInv

/-!
# Root paths that are links

`waitForDir` looks at the source with `Stat` and accepts a link to a directory;
`filepath.WalkDir` looks at its root with `Lstat` and does not go through it. A
`Reconcile` of a source behind a link therefore sees an empty source, without an
error, and its deep sweep empties the destination. A restore from a backup
behind a link restores nothing.
-/

namespace Dockerset.Netfin
open Go Os Logic

/-- Every regular file that is to be backed up is in `t` as a regular file with
the same permission bits, size and modification time. -/
def Kept (S : Tree) (ex : Path → Bool) (t : Tree) : Prop :=
  ∀ p f, Mirrored S ex p → S.get p = some (.file f) → (t.get p).map Node.info = some f.info

instance (S : Tree) (ex : Path → Bool) (t : Tree) : Decidable (Kept S ex t) :=
  decidable_of_iff (∀ p n, S.get p = some n → n.kind = .file → Mirrored S ex p →
    (t.get p).map Node.info = some n.info) <| by
    constructor
    · exact fun h p f hm hf => h p _ hf rfl hm
    · intro h p n hn hk hm
      obtain ⟨f, rfl⟩ := Node.kind_eq_file.1 hk
      exact h p f hm hn

/-- What reports the metadata of a file that is to be backed up is a regular file. -/
def Unposed (S : Tree) (ex : Path → Bool) (t : Tree) : Prop :=
  ∀ p f, Mirrored S ex p → S.get p = some (.file f) → Reports t p f.info → t.kind p = some .file

instance (S : Tree) (ex : Path → Bool) (t : Tree) : Decidable (Unposed S ex t) :=
  decidable_of_iff (∀ p n, S.get p = some n → n.kind = .file → Mirrored S ex p →
    Reports t p n.info → t.kind p = some .file) <| by
    constructor
    · exact fun h p f hm hf => h p _ hf rfl hm
    · intro h p n hn hk hm
      obtain ⟨f, rfl⟩ := Node.kind_eq_file.1 hk
      exact h p f hm hn

/-- A world in which nothing is going on. Either root may be a link. -/
structure Calm (w : World Trees) : Prop where
  plan : w.plan = []
  tmp : w.tmp = none

section

variable {S t₀ t₁ t : Tree} {ex : Path → Bool} {T : Set Time} {U : Perm} {m₁ m : StateMap} {seen : List Path}

/-- A pass that visits everything, and a sweep that leaves the shape of what was
visited alone. -/
theorem kept_iff_unposed (hpass : Pass S ex T U false [] t₀ ∅ seen t₁ m₁)
    (hall : ∀ p, p ∈ seen ↔ Mirrored S ex p) (hkeep : ∀ p ∈ seen, t.shape p = t₁.shape p) :
    Kept S ex t ↔ Unposed S ex t₀ := by
  constructor
  · intro hkept p f hm hf hr
    have hp := (hall p).2 hm
    rcases hpass.first_file hp hf with ⟨-, -, hno⟩ | ⟨-, hg⟩
    · exact absurd hr hno
    · obtain ⟨n, hn, hi⟩ := Option.map_eq_some_iff.1 (hkept p f hm hf)
      have hk : t.kind p = some n.kind := Tree.kind_of_get hn
      rw [Tree.kind_eq_shape, hkeep p hp, ← Tree.kind_eq_shape, Tree.kind, hg, ← Tree.kind] at hk
      rw [hk, Node.kind, hi]
      rfl
  · intro hun p f hm hf
    have hp := (hall p).2 hm
    rcases hpass.first_file hp hf with ⟨hg, -⟩ | ⟨hr, hg⟩
    · rw [Tree.get_eq_of_shape (hkeep p hp) hg (by simp)]
      rfl
    · obtain ⟨n, hn, -, hperm, hsize, hmtime⟩ := reports_iff.1 hr
      have hk := hun p f hm hf hr
      rw [Tree.kind_of_get hn] at hk
      obtain ⟨g, rfl⟩ := Node.kind_eq_file.1 (Option.some.inj hk)
      rw [Tree.get_eq_of_shape (hkeep p hp) (hg.trans hn) (by simp), Option.map_some]
      exact congrArg some (Info.ext rfl hperm hsize hmtime)

end

section

variable {w : World Trees}

/-- **`waitForDir`** accepts a source that `Stat` takes for a directory. -/
theorem wp_waitForDir (hq : w.plan = []) (path : Str) (looks : Nat) :
    WP (waitForDir path looks) (fun _ w' => w' = w ∧ w.srcTree.IsDir []) (fun _ _ => True) w := by
  induction looks with
  | zero => trivial
  | succ looks ih =>
    rw [waitForDir, WP.bind_iff, wp_attempt_iff]
    refine wp_query hq (fun info hinfo => ?_) fun e _ => ?_
    · change w.srcTree.stat [] = _ at hinfo
      dsimp only
      split
      · next hk =>
        obtain ⟨n, hn, -, rfl⟩ := Tree.stat_eq_ok.1 hinfo
        exact ⟨rfl, (Tree.kind_of_get hn).trans (congrArg some hk)⟩
      · trivial
    · dsimp only
      split
      · trivial
      · rw [WP.bind_iff]
        exact WP.of_ok (pollCtx_run hq) ih

theorem waitForDir_run (hq : w.plan = []) (hdir : w.srcTree.IsDir []) (path : Str) (looks : Nat) :
    (waitForDir path (looks + 1)).run w = .ok () w := by
  obtain ⟨a, ha⟩ := Tree.isDir_iff.1 hdir
  have hstat : (stat ⟨.src, []⟩).run w = .ok (a.info .dir) w :=
    query_ok hq (Tree.stat_eq_ok.2 ⟨_, ha, by simp, rfl⟩)
  rw [waitForDir, EStateM.run_bind, attempt_ok hstat]
  rfl

variable {patterns : List Str} {r' : Run Trees}

/-- The first `Reconcile` of a source that is a directory itself. -/
theorem kept_of_directory (hw : Calm w) (hsrc : w.disk.src.link = none)
    (hok : reconcile.run (freshRun w patterns) = .ok () r') :
    Kept w.srcTree (newExcluder patterns).excluded r'.dst ↔
      Unposed w.srcTree (newExcluder patterns).excluded w.dstTree := by
  obtain ⟨seen, t₁, m₁, t, n, m, ⟨hpass, hall⟩, hsw, rfl⟩ :=
    (wp_reconcile (r := freshRun w patterns) ⟨hw.plan, hw.tmp, rfl⟩ rfl).ok hok
  rw [Run.walked_eq_src hsrc] at hpass hall
  refine kept_iff_unposed hpass hall fun p hp => (hsw.keep p fun d hd => ?_).1
  exact not_stray_above hall hp hd.2

/-- The first `Reconcile` of a source behind a link sees nothing. It empties a
destination that is a directory, and does nothing to one behind a link. -/
theorem kept_of_link (hw : Calm w) (hsrc : w.disk.src.link ≠ none)
    (hok : reconcile.run (freshRun w patterns) = .ok () r') :
    (w.disk.dst.link = none → ∀ p, p ≠ [] → r'.dst.get p = none) ∧
      (w.disk.dst.link ≠ none → ∀ p, r'.dst.get p = w.dstTree.get p) := by
  obtain ⟨seen, t₁, m₁, t, n, m, ⟨hpass, hall⟩, hsw, rfl⟩ :=
    (wp_reconcile (r := freshRun w patterns) ⟨hw.plan, hw.tmp, rfl⟩ rfl).ok hok
  obtain ⟨a, ha⟩ := Option.ne_none_iff_exists'.1 hsrc
  have hlink : (freshRun w patterns).world.disk.src.link = some a := ha
  rw [Run.walked, hlink] at hpass hall
  have hseen : seen = [] := List.eq_nil_iff_forall_not_mem.2 fun p hp => not_reach_link ((hall p).1 hp)
  subst hseen
  constructor
  · intro hdst p hp
    refine Tree.not_has_iff.1 fun hhas => ?_
    have hstray : ∀ d, Doomed (freshRun w patterns) [] t₁ m₁ d ↔ Stray [] [] t₁ d := fun d =>
      (and_iff_right hdst : w.disk.dst.link = none ∧ Stray [] [] t₁ d ↔ _)
    exact List.not_mem_nil ((hsw.congr hstray).seen_of_has hp hhas)
  · intro hdst p
    have hpass' : t₁.get p = w.dstTree.get p :=
      hpass.tree_frame (fun q hq => absurd hq List.not_mem_nil) (not_cleared_false _ _ _)
    exact (hsw.frame p fun d hd => absurd hd.1 hdst).trans hpass'

/-- A restore from a backup that is a directory itself. -/
theorem restored_of_directory {w' : World Trees} (hw : Calm w) (hsrc : w.disk.src.link = none)
    (hdir : w.srcTree.IsDir []) (hok : (restoreFiles false).run w = .ok () w') :
    Restored w.srcTree w'.dstTree ∧ (w.dstTree.LinkFree → w'.dstTree.LinkFree) := by
  obtain ⟨t, n, l, rfl, hpass, hall⟩ := (wp_restoreFiles hw.plan hw.tmp hsrc hdir).ok hok
  refine ⟨?_, fun hfree => hpass.linkFree hfree⟩
  intro p f hf
  refine hpass.copied (hall p (Tree.has_of_get hf)) ?_ hf
  rintro rfl
  rw [Tree.IsDir, Tree.kind_of_get hf] at hdir
  cases hdir

/-- A dry run, and a restore from a backup behind a link, change nothing. -/
theorem restoreFiles_idle {w' : World Trees} {dryRun : Bool} (hw : Calm w) (hdir : w.srcTree.IsDir [])
    (h : ¬ (dryRun = false ∧ w.disk.src.link = none)) (hok : (restoreFiles dryRun).run w = .ok () w') :
    w' = w := by
  cases hsrc : w.disk.src.link with
  | some a => exact (wp_restoreFiles_link hw.plan hsrc dryRun).ok hok
  | none =>
    have hdry : dryRun = true := by simpa [hsrc] using h
    subst hdry
    exact (wp_restoreFiles_dry hw.plan hw.tmp hsrc hdir).ok hok

/-- The first `Reconcile` puts no link into the destination. -/
theorem linkFree_of_first (hw : Calm w) (hfree : w.dstTree.LinkFree)
    (hok : reconcile.run (freshRun w patterns) = .ok () r') : r'.dst.LinkFree := by
  have hi : (freshRun w patterns).Idle := ⟨⟨hw.plan, hw.tmp, rfl⟩, rfl⟩
  have hafter := (stepInv_linkFree _).under.after_call (c := .reconcile) (fun hg h => hg.linkFree h) hi
    trivial (Run.meets_unasked _) hfree
  rw [show after Call.reconcile.exec (freshRun w patterns) = r' from after_of_ok hok] at hafter
  exact hafter.2

/-- **Which files a syncer and a restore keep when a root may be a link**, if the
destination has no links below its root; it has none then either. After
the first `Reconcile` of a source that `waitForDir` accepts, every file is in the
destination exactly if: the source path is no link, and nothing but regular files
passes for a backup; or it is a link, and there is nothing to back up, or the
destination, a link too, is untouched and holds everything already. A restore
has copied everything exactly if it was not a dry run and the backup path is no
link, or everything was there before. -/
theorem linked_roots (hw : Calm w) (hfree : w.dstTree.LinkFree) {path : Str} {looks : Nat}
    (hwait : (waitForDir path looks).run w = .ok () w) :
    (∀ r', reconcile.run (freshRun w patterns) = .ok () r' → r'.dst.LinkFree ∧
      (Kept w.srcTree (newExcluder patterns).excluded r'.dst ↔
        if w.disk.src.link = none then Unposed w.srcTree (newExcluder patterns).excluded w.dstTree
        else if w.disk.dst.link = none then
          ∀ p, Mirrored w.srcTree (newExcluder patterns).excluded p → w.srcTree.kind p ≠ some .file
        else Kept w.srcTree (newExcluder patterns).excluded w.dstTree)) ∧
    ∀ dryRun w', (restoreFiles dryRun).run w = .ok () w' → w'.dstTree.LinkFree ∧
      (Restored w.srcTree w'.dstTree ↔
        (dryRun = false ∧ w.disk.src.link = none) ∨ Restored w.srcTree w.dstTree) := by
  have hdir := ((wp_waitForDir hw.plan path looks).ok hwait).2
  constructor
  · intro r' hok
    refine ⟨linkFree_of_first hw hfree hok, ?_⟩
    split
    · next hsrc => exact kept_of_directory hw hsrc hok
    · next hsrc =>
      obtain ⟨hempty, hsame⟩ := kept_of_link hw hsrc hok
      split
      · next hdst =>
        constructor
        · intro hkept p hm hk
          obtain ⟨n, hn, hk⟩ := Option.map_eq_some_iff.1 hk
          obtain ⟨f, rfl⟩ := Node.kind_eq_file.1 hk
          have hgone := hkept p f hm hn
          rw [hempty hdst p hm.ne_root] at hgone
          cases hgone
        · intro hno p f hm hf
          exact absurd (Tree.kind_of_get hf) (hno p hm)
      · next hdst =>
        unfold Kept
        simp only [hsame hdst]
  · intro dryRun w' hok
    by_cases hlive : dryRun = false ∧ w.disk.src.link = none
    · obtain ⟨rfl, hsrc⟩ := hlive
      obtain ⟨hres, hkeeps⟩ := restored_of_directory hw hsrc hdir hok
      exact ⟨hkeeps hfree, iff_of_true hres (.inl ⟨rfl, hsrc⟩)⟩
    · rw [restoreFiles_idle hw hdir hlive hok]
      simp only [hlive, false_or, and_true]
      exact hfree

end

/-- The file `a` of `copyWorld`, with its backup in the destination, and a source
path that is a link to the directory. -/
def linkWorld : World Trees :=
  { copyWorld with disk := ⟨⟨some ⟨0o777, 7, 1⟩, copyWorld.srcTree⟩, ⟨none, copyWorld.srcTree⟩⟩ }

/-- The source path is accepted; `Reconcile` removes the backup and returns nil.
A restore into an empty directory returns nil as well, and restores nothing. -/
theorem linked_source_wiped : Calm linkWorld ∧ linkWorld.dstTree.LinkFree ∧
    (waitForDir ['s'] 1).run linkWorld = .ok () linkWorld ∧
    (∃ r' : Run Trees, reconcile.run (freshRun linkWorld []) = .ok () r' ∧
      ¬ Kept linkWorld.srcTree (newExcluder []).excluded r'.dst) ∧
    ∃ w' : World Trees, (restoreFiles false).run (linkWorld.setDst copyWorld.dstTree 0) = .ok () w' ∧
      ¬ Restored linkWorld.srcTree w'.dstTree := by
  have hrun := ok_of_returns reconcile (freshRun linkWorld []) (by decide +kernel)
  have hres := ok_of_returns (restoreFiles false) (linkWorld.setDst copyWorld.dstTree 0)
    (by decide +kernel)
  exact ⟨⟨rfl, rfl⟩, by decide +kernel, waitForDir_run rfl (by decide +kernel) _ _,
    ⟨_, hrun, by decide +kernel⟩, _, hres, by decide +kernel⟩

/-- With a source path that is the directory itself both keep the file. -/
theorem linked_roots_copy : ∃ (r' : Run Trees) (w' : World Trees),
    reconcile.run (freshRun copyWorld []) = .ok () r' ∧
    Kept copyWorld.srcTree (newExcluder []).excluded r'.dst ∧
    (restoreFiles false).run copyWorld = .ok () w' ∧ Restored copyWorld.srcTree w'.dstTree := by
  have hrun := ok_of_returns reconcile (freshRun copyWorld []) (by decide +kernel)
  have hres := ok_of_returns (restoreFiles false) copyWorld (by decide +kernel)
  have hwait := waitForDir_run (w := copyWorld) rfl (by decide +kernel) ['s'] 0
  have hroots := @linked_roots copyWorld [] ⟨rfl, rfl⟩ (by decide +kernel) _ _ hwait
  refine ⟨_, _, hrun, (hroots.1 _ hrun).2.2 ?_, hres, (hroots.2 _ _ hres).2.2 (.inl ⟨rfl, rfl⟩)⟩
  exact (by decide +kernel : Unposed copyWorld.srcTree (newExcluder []).excluded copyWorld.dstTree)

end Dockerset.Netfin

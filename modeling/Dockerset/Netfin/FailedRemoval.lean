import Dockerset.Netfin.History
import Dockerset.Os.Faults

/-!
# Removals that fail

`RemovePath` removes a path and then syncs the directory above it, and the state
map forgets the path only when both have gone well. `RemoveAll` may fail when it has
removed a part of what is there, and the sync may fail when all of it is gone: the
state map then still remembers files that are no longer backed up.
-/

namespace Dockerset.Netfin
open Go Os Logic

/-- The disk after some paths of the destination have been deleted. -/
def withoutPaths (gone : List Path) (d : Trees) : Trees :=
  { d with dst := { d.dst with tree := gone.foldl Tree.prune d.dst.tree } }

theorem kind_foldl_prune (gone : List Path) (q : Path) : ∀ t : Tree,
    (gone.foldl Tree.prune t).kind q = if ∃ g ∈ gone, g <+: q then none else t.kind q := by
  induction gone with
  | nil =>
    intro t
    simp
  | cons g gone ih =>
    intro t
    rw [List.foldl_cons, ih, Tree.kind, Tree.get_prune]
    by_cases hg : g <+: q
    · simp [hg]
    · simp [hg, Tree.kind]

/-- `q` is deleted by a `RemovePath` of `p` that fails after `n` of its calls have
gone well: by `RemoveAll`, which fails having removed the paths `gone`; or before the
parent directory was opened or synced. An ancestor that is no directory stops
`RemoveAll` before it has done anything. -/
def Lost (t : Tree) (p : Path) (n : Nat) (gone : List Path) (q : Path) : Prop :=
  if n = 0 then ∃ g ∈ gone, g <+: q
  else (t.Has p ∨ t.missing p = .ENOENT) ∧ (p <+: q ∨ ∃ g ∈ gone, g <+: q)

instance (t : Tree) (p : Path) (n : Nat) (gone : List Path) (q : Path) : Decidable (Lost t p n gone q) := by
  unfold Lost
  infer_instance

section

variable {w : World Trees} {p : Path} {n : Nat} {gone : List Path} {e : Errno}
  {rest : List (Event Trees)}

theorem root_unblocked (t : Tree) : t.Has [] ∨ t.missing [] = .ENOENT := by
  by_cases h : t.Has []
  · exact .inl h
  · refine .inr ?_
    have hkind : t.kind [] = none := by rw [Tree.kind, Tree.not_has_iff.1 h, Option.map_none]
    simp [Tree.missing, hkind]

/-- `RemoveAll` in the destination takes the link away if the root path is one, and
works on the tree otherwise. -/
theorem removeAll_cases (d : Trees) (p : Path) (now : Time) :
    (p = [] ∧ Disk.removeAll d ⟨.dst, p⟩ now = .ok { d with dst := ⟨none, .empty⟩ }) ∨
    Disk.removeAll d ⟨.dst, p⟩ now =
      (d.dst.tree.removeAll p now).map fun t => { d with dst := { d.dst with tree := t } } := by
  have htree : ∀ x : Except Errno Tree,
      ((x.map fun t => ({ d.dst with tree := t } : Root)).map fun r => { d with dst := r }) =
        x.map fun t => ({ d with dst := { d.dst with tree := t } } : Trees) := by
    intro x
    cases x <;> rfl
  cases p with
  | nil =>
    cases hlink : d.dst.link with
    | some a =>
      refine .inl ⟨rfl, ?_⟩
      simp only [Disk.removeAll, Trees.onRoot, Root.removeAll, hlink]
      rfl
    | none =>
      refine .inr ?_
      simp only [Disk.removeAll, Trees.onRoot, Root.removeAll, hlink, Root.onTree]
      rw [← hlink]
      exact htree _
  | cons x xs =>
    refine .inr ?_
    simp only [Disk.removeAll, Trees.onRoot, Root.removeAll, Root.onTree]
    exact htree _

theorem removeAll_unblocked {t t' : Tree} {now : Time} (h : t.removeAll p now = .ok t') :
    t.Has p ∨ t.missing p = .ENOENT := by
  unfold Tree.removeAll at h
  split at h
  · next hhas => exact .inl hhas
  · split at h
    · next hm => exact .inr hm
    · cases h

/-- **`RemoveAll` that goes well**: nothing was in the way, the parent directory can be
opened unless it is missing, and nothing is left at or below the path. -/
theorem removeAll_ok {d d' : Trees} {now : Time} (h : Disk.removeAll d ⟨.dst, p⟩ now = .ok d') :
    (d.dst.tree.Has p ∨ d.dst.tree.missing p = .ENOENT) ∧
    (p = [] ∨ d'.dst.tree.Has p.dropLast ∨ d'.dst.tree.missing p = .ENOENT) ∧
    ∀ q, d'.dst.tree.kind q = if p <+: q then none else d.dst.tree.kind q := by
  rcases removeAll_cases d p now with ⟨rfl, heq⟩ | heq
  · cases h.symm.trans heq
    refine ⟨root_unblocked _, .inl rfl, fun q => ?_⟩
    rw [if_pos List.nil_prefix]
    rfl
  · cases ht : d.dst.tree.removeAll p now with
    | error e =>
      rw [heq, ht] at h
      cases h
    | ok t =>
      rw [heq, ht] at h
      cases h
      refine ⟨removeAll_unblocked ht, ?_, fun q => ?_⟩
      · by_cases hp : p = []
        · exact .inl hp
        · exact .inr (Tree.removeAll_parent hp ht)
      · rw [Tree.kind_eq_shape, (Tree.removeAll_spec (Set.mem_univ now) ht).shape, Tree.kind_eq_shape]
        split <;> rfl

/-- **`RemoveAll` that fails on its own** was stopped by something above the path. -/
theorem removeAll_error {d : Trees} {now : Time} {e : Errno}
    (h : Disk.removeAll d ⟨.dst, p⟩ now = .error e) :
    ¬ (d.dst.tree.Has p ∨ d.dst.tree.missing p = .ENOENT) := by
  rcases removeAll_cases d p now with ⟨-, heq⟩ | heq
  · cases h.symm.trans heq
  · rw [heq, Tree.removeAll] at h
    by_cases hhas : d.dst.tree.Has p
    · rw [if_pos hhas] at h
      cases h
    · rw [if_neg hhas] at h
      rintro (hc | hm)
      · exact hhas hc
      · rw [if_pos hm] at h
        cases h

theorem wp_fsyncDir_failing (h : w.FailsAfter n (withoutPaths gone) e rest) (he : e ≠ .ENOENT)
    (hparent : p = [] ∨ w.dstTree.Has p.dropLast ∨ w.dstTree.missing p = .ENOENT) :
    WP (fsyncDir ⟨.dst, p⟩)
      (fun _ w' => w'.disk = w.disk ∧ ∃ m, w'.FailsAfter m (withoutPaths gone) e rest)
      (fun _ w' => w'.disk = withoutPaths gone w.disk) w := by
  rw [fsyncDir, WP.bind_iff, wp_attempt_iff]
  refine h.wp_query (fun _ => ?_) (fun w₁ m _ _ h₁ hd _ => ?_) fun w₁ m e' _ h₁ hd hx => ?_
  · cases e with
    | ENOENT => exact absurd rfl he
    | _ => rfl
  · simp only [WP.bind_iff, wp_attempt_iff]
    refine h₁.wp_syscall (x := fun _ => .ok ()) (g := fun w₂ _ => ((), w₂)) (fun _ => rfl) (fun _ => ?_)
      (fun w₂ k _ _ h₂ hd₂ _ => ?_) fun _ _ _ _ _ _ hx => by cases hx
    · show withoutPaths gone w₁.disk = _
      rw [hd]
    · exact ⟨hd₂.trans hd, k, h₂⟩
  · -- a parent that cannot be opened is missing
    have hcall : Disk.openParent w.disk ⟨.dst, p⟩ = w.dstTree.openParent p := rfl
    rw [hcall, Tree.openParent] at hx
    split at hx
    · cases hx
    · next hno =>
      simp only [not_or] at hno
      cases hx
      rw [(hparent.resolve_left hno.1).resolve_left hno.2]
      exact ⟨hd, m, h₁⟩

theorem kind_withoutPaths (gone : List Path) (d : Trees) (q : Path) :
    (withoutPaths gone d).dst.tree.kind q = if ∃ g ∈ gone, g <+: q then none else d.dst.tree.kind q :=
  kind_foldl_prune gone q _

/-- **`RemovePath` with a failure ahead.** When it goes well, nothing is left at or below
the path, and the failure is still to come; when it fails, exactly `Lost` is gone. -/
theorem wp_removePath_failing (h : w.FailsAfter n (withoutPaths gone) e rest) (he : e ≠ .ENOENT) :
    WP (removePath ⟨.dst, p⟩ false)
      (fun _ w' => (∃ m, w'.FailsAfter m (withoutPaths gone) e rest) ∧
        ∀ q, w'.dstTree.kind q = if p <+: q then none else w.dstTree.kind q)
      (fun _ w' => ∀ q, w'.dstTree.kind q =
        if Lost w.dstTree p n gone q then none else w.dstTree.kind q) w := by
  simp only [removePath, Bool.false_eq_true, if_false, WP.bind_iff]
  refine h.wp_syscall (x := fun w₁ => Disk.removeAll w₁.disk ⟨.dst, p⟩ (w₁.clock w₁.tick))
    (g := fun w₁ d => ((), { w₁ with disk := d, tick := w₁.tick + 1 })) (fun _ => rfl) (fun hn q => ?_)
    (fun w₁ m d hn h₁ hd hx => ?_) fun w₁ m e' hn h₁ hd hx q => ?_
  · have hkind := kind_withoutPaths gone w.disk q
    simp only [Lost, if_pos hn]
    exact hkind
  · rw [hd] at hx
    obtain ⟨hfree, hparent, hkind⟩ := removeAll_ok hx
    refine (wp_fsyncDir_failing (w := { w₁ with disk := d, tick := w₁.tick + 1 }) h₁ he hparent).mono ?_ ?_
    · rintro _ w' ⟨hdisk, hm⟩
      refine ⟨hm, fun q => ?_⟩
      rw [show w'.dstTree = d.dst.tree from congrArg (fun d : Trees => d.dst.tree) hdisk]
      exact hkind q
    · intro _ w' hdisk q
      rw [show w'.dstTree = (withoutPaths gone d).dst.tree from
        congrArg (fun d : Trees => d.dst.tree) hdisk, kind_withoutPaths, hkind q]
      have hlost : Lost w.dstTree p n gone q ↔ p <+: q ∨ ∃ g ∈ gone, g <+: q := by
        simp only [Lost, hn, Nat.succ_ne_zero, if_false]
        exact and_iff_right hfree
      by_cases hp : p <+: q
      · simp [hlost, hp]
      · simp [hlost, hp]
  · have hblocked : ¬ (w.dstTree.Has p ∨ w.dstTree.missing p = .ENOENT) := by
      rw [hd] at hx
      exact removeAll_error hx
    have hlost : ¬ Lost w.dstTree p n gone q := by
      simp only [Lost, hn, Nat.succ_ne_zero, if_false]
      exact fun hc => hblocked hc.1
    rw [if_neg hlost, show w₁.dstTree = w.dstTree from congrArg (fun d : Trees => d.dst.tree) hd]

end

/-! ## What the state map says afterwards -/

/-- Every remembered file is a regular file of the destination. -/
def Truthful (r : Run Trees) : Prop :=
  ∀ q st, r.state.lookup q = some st → st.kind = .file → r.dst.kind q = some .file

/-- Every remembered file is there, and a `RemovePath` of `p` that fails in this way
does not delete it. -/
def Spared (r : Run Trees) (p : Path) (n : Nat) (gone : List Path) : Prop :=
  ∀ q st, r.state.lookup q = some st → st.kind = .file →
    r.dst.kind q = some .file ∧ ¬ Lost r.dst p n gone q

instance (r : Run Trees) (p : Path) (n : Nat) (gone : List Path) : Decidable (Spared r p n gone) :=
  decidable_of_iff (∀ q ∈ r.state.keys, ∀ st ∈ r.state.lookup q, st.kind = .file →
    r.dst.kind q = some .file ∧ ¬ Lost r.dst p n gone q) <| by
    constructor
    · intro h q st hq
      exact h q ((AList.mem_keys_iff_lookup _ _).2 ⟨st, hq⟩) st hq
    · intro h q _ st hq
      exact h q st hq

section

variable {r r' : Run Trees} {p root rel : Path} {seen : List Path} {n : Nat} {gone : List Path} {e : Errno}
  {rest : List (Event Trees)}

theorem truthful_iff_spared (hstate : r'.state = r.state)
    (hkind : ∀ q, r'.dst.kind q = if Lost r.dst p n gone q then none else r.dst.kind q) :
    Truthful r' ↔ Spared r p n gone := by
  unfold Truthful Spared
  rw [hstate]
  refine forall₄_congr fun q st _ _ => ?_
  rw [hkind q]
  by_cases hlost : Lost r.dst p n gone q
  · simp [hlost]
  · simp [hlost]

theorem Truthful.prune (h : Truthful r) (hp : p ≠ []) (hstate : r'.state = StateMap.prune r.state p)
    (hkind : ∀ q, r'.dst.kind q = if p <+: q then none else r.dst.kind q) : Truthful r' := by
  intro q st hq hst
  rw [hstate, lookup_prune hp] at hq
  split at hq
  · cases hq
  · next hpq =>
    rw [hkind q, if_neg hpq]
    exact h q st hq hst

/-- **`removeBackupPath`** that fails has forgotten nothing. -/
theorem wp_removeBackupPath_failing (hlive : r.syncer.dryRun = false)
    (h : r.world.FailsAfter n (withoutPaths gone) e rest) (he : e ≠ .ENOENT) :
    WP (removeBackupPath p ⟨.dst, p⟩) (fun _ _ => True)
      (fun _ r' => Truthful r' ↔ Spared r p n gone) r := by
  simp only [removeBackupPath, getSyncer, WP.bind_iff, WP.get_iff, WP.pure_iff, wp_liftSys_iff, hlive]
  refine (wp_removePath_failing h he).mono (fun _ _ _ => trivial) fun _ w' hkind => ?_
  exact truthful_iff_spared rfl hkind

/-- The loop between two removals: the failure is still to come, and if the state map
was truthful it still is. -/
structure Sweeping (r s : Run Trees) (gone : List Path) (e : Errno) (rest : List (Event Trees)) : Prop where
  live : s.syncer.dryRun = false
  ahead : ∃ m, s.world.FailsAfter m (withoutPaths gone) e rest
  truthful : r.state.lookup [] = none → Truthful r → s.state.lookup [] = none ∧ Truthful s

theorem wp_removeDeletedPath_failing {s : Run Trees} (hs : Sweeping r s gone e rest)
    (h : s.world.FailsAfter n (withoutPaths gone) e rest) (he : e ≠ .ENOENT) :
    WP (removeDeletedPath root seen rel) (fun _ r' => Sweeping r r' gone e rest)
      (fun _ r' => Truthful r' ↔ Spared s rel n gone) s := by
  unfold removeDeletedPath
  split
  · exact hs
  split
  · exact hs
  simp only [hasState, getSyncer, WP.bind_iff, WP.get_iff, WP.pure_iff]
  split
  · exact hs
  next hknown =>
    simp only [orFail_joinUnder, WP.bind_iff, WP.get_iff, WP.pure_iff, wp_liftSys_iff, hs.live]
    refine (wp_removePath_failing h he).mono ?_ fun _ w' hkind => truthful_iff_spared rfl hkind
    rintro _ w' ⟨hahead, hkind⟩
    rw [forgetStateTree, wp_modifySyncer_iff]
    have hforget : Syncer.forgetTree s.syncer rel = { s.syncer with state := StateMap.prune s.state rel } := by
      rw [Syncer.forgetTree, if_neg (by simp [hs.live])]
    refine ⟨?_, hahead, fun hroot htrue => ?_⟩
    · show (Syncer.forgetTree s.syncer rel).dryRun = false
      rw [hforget]
      exact hs.live
    · obtain ⟨hroot', htrue'⟩ := hs.truthful hroot htrue
      have hrel : rel ≠ [] := by
        intro h0
        rw [h0, show s.syncer.state.lookup [] = none from hroot'] at hknown
        exact hknown rfl
      have hstate : (Syncer.forgetTree s.syncer rel).state = StateMap.prune s.state rel := by rw [hforget]
      refine ⟨?_, htrue'.prune hrel hstate hkind⟩
      show (Syncer.forgetTree s.syncer rel).state.lookup [] = none
      rw [hstate]
      exact lookup_prune_root hrel hroot'

end

/-- **Removals that fail.** `n` more calls go well and the next one fails, having deleted
the paths `gone` of the destination. When `removeBackupPath` has returned the error,
every file entry of the state map denotes a regular file of the destination exactly if
it did before and the failing `RemovePath` has not deleted the file. So it is with
`removeDeletedFromStateUnder` and the removal it fails at; the removals before that
one keep a truthful state map truthful. -/
theorem failed_removal_truthful {r r' : Run Trees} {n : Nat} {gone : List Path} {e : Errno}
    {rest : List (Event Trees)} (hlive : r.syncer.dryRun = false)
    (hfail : r.world.FailsAfter n (withoutPaths gone) e rest) (he : e ≠ .ENOENT) :
    (∀ p err, (removeBackupPath p ⟨.dst, p⟩).run r = .error err r' →
      (Truthful r' ↔ Spared r p n gone)) ∧
    (∀ root seen err, (removeDeletedFromStateUnder root seen).run r = .error err r' →
      ∃ done p later s m, r.syncer.statePaths = done ++ p :: later ∧
        (forM done (removeDeletedPath root seen)).run r = .ok () s ∧
        s.world.FailsAfter m (withoutPaths gone) e rest ∧
        (r.state.lookup [] = none → Truthful r → Truthful s) ∧
        (Truthful r' ↔ Spared s p m gone)) := by
  constructor
  · intro p err hrun
    exact (wp_removeBackupPath_failing hlive hfail he).error hrun
  · intro root seen err hrun
    obtain ⟨done, p, later, s, hpaths, hdone, hlast⟩ := forM_error hrun
    have hloop : WP (forM done (removeDeletedPath root seen)) (fun _ s => Sweeping r s gone e rest)
        (fun _ _ => True) r := by
      refine WP.forM (fun _ s => Sweeping r s gone e rest) ⟨hlive, ⟨n, hfail⟩, fun h h' => ⟨h, h'⟩⟩ ?_
      intro _ rel _ s _ hs
      obtain ⟨m, hm⟩ := hs.ahead
      exact (wp_removeDeletedPath_failing hs hm he).mono (fun _ _ h => h) fun _ _ _ => trivial
    have hs := hloop.ok hdone
    obtain ⟨m, hm⟩ := hs.ahead
    exact ⟨done, p, later, s, m, hpaths, hdone, hm, fun h h' => (hs.truthful h h').2,
      (wp_removeDeletedPath_failing hs hm he).error hlast⟩

/-- From here on `n` calls go well, and the next one fails without having done anything. -/
def Run.failing (r : Run Trees) (n : Nat) : Run Trees :=
  { r with world := { r.world with
      plan := List.replicate n ⟨id, none, 0, []⟩ ++ [⟨withoutPaths [], some Errno.EIO, 0, []⟩] } }

/-- `RemoveAll` fails before it has deleted anything: the entry for the file `a` stays,
and so does the file. -/
theorem failed_removal_truthful_untouched : ∃ (r r' : Run Trees) (err : Err),
    (removeBackupPath [nameA] ⟨.dst, [nameA]⟩).run r = .error err r' ∧
    r'.state.lookup [nameA] ≠ none ∧ Truthful r' := by
  let r := (after reconcile (freshRun copyWorld [])).failing 0
  obtain ⟨err, hrun⟩ := run_of_fails (x := removeBackupPath [nameA] ⟨.dst, [nameA]⟩) (s := r)
    (by decide +kernel)
  have hlive : r.syncer.dryRun = false := by decide +kernel
  have hspared : Spared r [nameA] 0 [] := by decide +kernel
  have hknown : (after (removeBackupPath [nameA] ⟨.dst, [nameA]⟩) r).state.lookup [nameA] ≠ none := by
    decide +kernel
  have hfail : r.world.FailsAfter 0 (withoutPaths []) Errno.EIO [] := rfl
  have htruthful := (failed_removal_truthful hlive hfail (by decide)).1 [nameA] err hrun
  exact ⟨r, _, err, hrun, hknown, htruthful.2 hspared⟩

/-- The file `a` is deleted in the source, `SyncRel` deletes its backup, and the sync of
the directory fails. The state map still has the file, and when it comes back as it
was, `SyncRel` returns nil and copies nothing. -/
theorem failed_sync_forgets_nothing : ∃ (r₁ r₂ r₃ : Run Trees) (err : Err),
    reconcile.run (freshRun copyWorld []) = .ok () r₁ ∧
    (syncRel ['a']).run ((r₁.edit (.ofList [([], .dir ⟨0o755, 4096, 1⟩)])).failing 4) = .error err r₂ ∧
    ¬ Truthful r₂ ∧ (syncRel ['a']).run (r₂.edit copyWorld.srcTree) = .ok () r₃ ∧
    r₃.src.get [nameA] = some (.file ⟨0o644, 7, [1, 2]⟩) ∧ ¬ r₃.dst.Has [nameA] := by
  let r₁ := after reconcile (freshRun copyWorld [])
  let gone := (r₁.edit (.ofList [([], .dir ⟨0o755, 4096, 1⟩)])).failing 4
  let r₂ := after (syncRel ['a']) gone
  let back := r₂.edit copyWorld.srcTree
  have h₁ := ok_of_returns reconcile (freshRun copyWorld []) (by decide +kernel)
  obtain ⟨err, h₂⟩ := run_of_fails (x := syncRel ['a']) (s := gone) (by decide +kernel)
  have h₃ := ok_of_returns (syncRel ['a']) back (by decide +kernel)
  have hknown : r₂.state.lookup [nameA] = some (fileState ⟨0o644, 7, [1, 2]⟩) := by decide +kernel
  have hkind : r₂.dst.kind [nameA] = none := by decide +kernel
  have hback : (after (syncRel ['a']) back).src.get [nameA] = some (.file ⟨0o644, 7, [1, 2]⟩) := by
    decide +kernel
  have hnone : ¬ (after (syncRel ['a']) back).dst.Has [nameA] := by decide +kernel
  have hlies : ¬ Truthful r₂ := by
    intro htrue
    have hfile := htrue [nameA] (fileState ⟨0o644, 7, [1, 2]⟩) hknown rfl
    rw [hkind] at hfile
    cases hfile
  exact ⟨r₁, r₂, _, err, h₁, h₂, hlies, h₃, hback, hnone⟩

end Dockerset.Netfin

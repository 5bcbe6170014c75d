import Dockerset.Netfin.SyncQuiet
import Dockerset.Os.Visits

/-!
# Restoring ordinary files (`internal/restore/restore.go`)

`restoreFiles` walks the backup and copies every directory and regular file it
meets to the target. The backup is the source side of the world here, and the
target its destination side.

Unlike the syncer, the restore compares nothing: a file that is visited is
copied, so once it has been visited its copy is the file itself.
-/

namespace Dockerset.Netfin
open Go Os Logic

section

variable {D : Type} [Disk D]

/-- The callback of `restoreFiles`. -/
def restoreFn (dryRun : Bool) : WalkFn (World D) := fun p entry => do
  match entry with
  | .error e => throw e
  | .ok k =>
    pollCtx
    if p = [] then return .next
    -- entry.Info()
    let info ← lstat ⟨.src, p⟩
    if info.kind = .symlink then return .next
    let dst ← orFail (joinUnder .dst p.str)
    if k = .dir then
      if dryRun then return .next
      mkdirAll dst info.perm
      return .next
    if info.kind ≠ .file then return .next
    atomicCopyFile ⟨.src, p⟩ dst info.perm info.mtime dryRun
    return .next

/-- `restoreFiles(ctx, backupDir, targetDir, dryRun, log)`. -/
def restoreFiles (dryRun : Bool) : Sys D Unit := walk (restoreFn dryRun) ⟨.src, []⟩

end

/-- Every regular file of `S` is in `t`, with its content, permission bits and
modification time. -/
def Restored (S t : Tree) : Prop := ∀ p f, S.get p = some (.file f) → t.get p = some (.file f)

instance (S t : Tree) : Decidable (Restored S t) :=
  decidable_of_iff (∀ p n, S.get p = some n → n.kind = .file → t.get p = some n) <| by
    constructor
    · exact fun h p f hf => h p _ hf rfl
    · intro h p n hn hk
      obtain ⟨f, rfl⟩ := Node.kind_eq_file.1 hk
      exact h p f hn

/-- The visit of `q` by a restore that is not a dry run, under the umask `U`. -/
inductive Restores (S : Tree) (T : Set Time) (U : Perm) (q : Path) (t : Tree) : Tree → Prop
  | skip (h : q = [] ∨ (S.kind q ≠ some .dir ∧ S.kind q ≠ some .file)) : Restores S T U q t t
  | dir {a : Attr} {t' : Tree} (hS : S.get q = some (.dir a))
    (h : Tree.MadeDirs T (a.perm &&& ~~~U) q t t') : Restores S T U q t t'
  | file {f : File} {t' : Tree} (hS : S.get q = some (.file f))
    (h : Copied T (0o755 &&& ~~~U) q f t t') : Restores S T U q t t'

/-- The visits of a restore, in the order of the walk. -/
inductive RestorePass (S : Tree) (T : Set Time) (U : Perm) (t₀ : Tree) : List Path → Tree → Prop
  | nil : RestorePass S T U t₀ [] t₀
  | snoc {l : List Path} {q : Path} {t t' : Tree} (done : RestorePass S T U t₀ l t) (has : S.Has q)
    (fresh : ∀ x ∈ l, ¬ q <+: x) (visit : Restores S T U q t t') : RestorePass S T U t₀ (l ++ [q]) t'

section

variable {S t t' t₀ : Tree} {T : Set Time} {U : Perm} {q x : Path} {f : File} {a : Attr}
  {l : List Path}

theorem Restores.copied (h : Restores S T U q t t') (hq : q ≠ []) (hf : S.get q = some (.file f)) :
    t'.get q = some (.file f) := by
  cases h with
  | skip h => exact absurd (Tree.kind_of_get hf) (h.resolve_left hq).2
  | dir hS => rw [hS] at hf; cases hf
  | file hS h =>
    rw [hS] at hf
    cases hf
    exact Tree.get_file_iff_shape.2 (by rw [h.shape, if_pos rfl])

theorem Restores.made (h : Restores S T U q t t') (hq : q ≠ []) (ha : S.get q = some (.dir a)) :
    t'.IsDir q ∧ (t.get q = none → t'.shape q = some (.dir ⟨a.perm &&& ~~~U, 0, 0⟩)) := by
  cases h with
  | skip h => exact absurd (Tree.kind_of_get ha) (h.resolve_left hq).1
  | dir hS h =>
    rw [hS] at ha
    cases ha
    refine ⟨h.isDir List.prefix_rfl, fun hnone => ?_⟩
    rw [h.shape, if_pos ⟨List.prefix_rfl, Tree.shape_eq_none.2 hnone⟩]
  | file hS => rw [hS] at ha; cases ha

theorem Restores.keeps (h : Restores S T U q t t') (hx : x ≠ q) (hhas : t.Has x) :
    t'.shape x = t.shape x := by
  have hsome := Tree.shape_ne_none.2 hhas
  cases h with
  | skip => rfl
  | dir _ h => rw [h.shape, if_neg fun hc => hsome hc.2]
  | file _ h => rw [h.shape, if_neg hx, if_neg fun hc => hsome hc.2]

theorem Restores.new (h : Restores S T U q t t') (hx : t'.Has x) : t.Has x ∨ x <+: q := by
  rw [Tree.has_iff_shape] at hx ⊢
  cases h with
  | skip => exact .inl hx
  | dir _ h =>
    rw [h.shape] at hx
    split at hx
    · next hc => exact .inr hc.1
    · exact .inl hx
  | file _ h =>
    rw [h.shape] at hx
    split at hx
    · next hc => exact .inr (hc ▸ List.prefix_rfl)
    · split at hx
      · next hc => exact .inr hc.1
      · exact .inl hx

namespace RestorePass

theorem linkFree (h : RestorePass S T U t₀ l t) (h₀ : t₀.LinkFree) : t.LinkFree := by
  induction h with
  | nil => exact h₀
  | snoc _ _ _ hv ih =>
    cases hv with
    | skip => exact ih
    | dir _ hm => exact (MadeDirs.grown hm).linkFree ih
    | file _ hc => exact hc.linkFree ih

theorem has (h : RestorePass S T U t₀ l t) (hx : x ∈ l) : S.Has x := by
  induction h with
  | nil => cases hx
  | snoc _ hq _ _ ih =>
    rcases List.mem_append.1 hx with hx | hx
    · exact ih hx
    · exact List.mem_singleton.1 hx ▸ hq

/-- What is there and is no path of the backup keeps its shape. -/
theorem frame (h : RestorePass S T U t₀ l t) (hx : ¬ S.Has x) (hhas : t₀.Has x) :
    t.shape x = t₀.shape x := by
  induction h with
  | nil => rfl
  | @snoc l q t t' _ hq _ hv ih =>
    have hne : x ≠ q := fun he => hx (he ▸ hq)
    have hhas' : t.Has x := by
      rw [Tree.has_iff_shape, ih, ← Tree.has_iff_shape]
      exact hhas
    rw [hv.keeps hne hhas', ih]

theorem new (h : RestorePass S T U t₀ l t) (hx : t.Has x) : t₀.Has x ∨ ∃ q ∈ l, x <+: q := by
  induction h with
  | nil => exact .inl hx
  | @snoc l q _ _ _ _ _ hv ih =>
    rcases hv.new hx with hx | hx
    · rcases ih hx with h | ⟨y, hy, hxy⟩
      · exact .inl h
      · exact .inr ⟨y, by simp [hy], hxy⟩
    · exact .inr ⟨q, by simp, hx⟩

/-- A visited file is there, and later visits keep it. -/
theorem copied (h : RestorePass S T U t₀ l t) (hx : x ∈ l) (hne : x ≠ [])
    (hf : S.get x = some (.file f)) : t.get x = some (.file f) := by
  induction h with
  | nil => cases hx
  | @snoc l q t t' _ _ _ hv ih =>
    by_cases hq : x = q
    · subst hq
      exact hv.copied hne hf
    · have hold := ih (by simpa [hq] using hx)
      exact Tree.get_eq_of_shape (hv.keeps hq (Tree.has_of_get hold)) hold (by simp)

/-- A visited directory is there; if nothing was, it has the backup's permission
bits as far as the umask lets them through. -/
theorem made (h : RestorePass S T U t₀ l t) (hx : x ∈ l) (hne : x ≠ [])
    (ha : S.get x = some (.dir a)) :
    t.IsDir x ∧ (t₀.get x = none → t.shape x = some (.dir ⟨a.perm &&& ~~~U, 0, 0⟩)) := by
  induction h with
  | nil => cases hx
  | @snoc l q t t' hpass _ hfresh hv ih =>
    by_cases hq : x = q
    · subst hq
      obtain ⟨hdir, hshape⟩ := hv.made hne ha
      refine ⟨hdir, fun hnone => hshape ?_⟩
      -- nothing below the directory has been visited yet
      rw [← Tree.not_has_iff]
      intro hhas
      rcases hpass.new hhas with h | ⟨y, hy, hxy⟩
      · exact Tree.not_has_iff.2 hnone h
      · exact hfresh y hy hxy
    · obtain ⟨hdir, hshape⟩ := ih (by simpa [hq] using hx)
      have hkeep := hv.keeps hq hdir.has
      refine ⟨?_, fun hnone => hkeep.trans (hshape hnone)⟩
      rw [Tree.isDir_iff_shape, hkeep, ← Tree.isDir_iff_shape]
      exact hdir

end RestorePass

end

section

variable {w : World Trees} {q : Path} {k : Kind}

/-- One call of the callback. -/
theorem wp_restoreFn (hq : w.plan = []) (htmp : w.tmp = none) (hk : w.srcTree.kind q = some k) :
    WP (restoreFn false q (.ok k))
      (fun c w' => c = .next ∧ ∃ t n, w' = w.setDst t n ∧
        Restores w.srcTree (Set.range w.clock) w.umask q w.dstTree t)
      (fun _ _ => True) w := by
  obtain ⟨node, hg, rfl⟩ := Option.map_eq_some_iff.1 hk
  simp only [restoreFn, WP.bind_iff]
  refine WP.of_ok (pollCtx_run hq) ?_
  by_cases hroot : q = []
  · rw [if_pos hroot]
    exact ⟨rfl, w.dstTree, 0, rfl, .skip (.inl hroot)⟩
  simp only [hroot, if_false, WP.bind_iff]
  refine WP.of_ok (lstat_src_ok hq (.inl hroot) hg) ?_
  have hskip : node.kind ≠ .dir ∧ node.kind ≠ .file → ∃ t n, w = w.setDst t n ∧
      Restores w.srcTree (Set.range w.clock) w.umask q w.dstTree t := by
    intro hno
    refine ⟨w.dstTree, 0, rfl, .skip (.inr ?_)⟩
    rw [hk]
    simpa using hno
  cases node with
  | symlink a => exact ⟨rfl, hskip (by simp)⟩
  | special a =>
    change WP (orFail (joinUnder .dst q.str) >>= fun _ => pure Ctl.next) _ _ w
    rw [orFail_joinUnder]
    exact ⟨rfl, hskip (by simp)⟩
  | dir a =>
    change WP (orFail (joinUnder .dst q.str) >>= fun dst => mkdirAll dst a.perm >>= fun _ => pure Ctl.next)
      _ _ w
    rw [orFail_joinUnder, pure_bind, WP.bind_iff]
    refine wp_mkdirAll_dst hq (fun t ht => ?_) fun _ _ => trivial
    exact ⟨rfl, t, 1, rfl, .dir hg (Tree.mkdirAll_spec (Set.mem_range_self _) ht)⟩
  | file f =>
    change WP (orFail (joinUnder .dst q.str) >>= fun dst =>
      atomicCopyFile ⟨.src, q⟩ dst f.perm f.mtime false >>= fun _ => pure Ctl.next) _ _ w
    rw [orFail_joinUnder, pure_bind, WP.bind_iff]
    refine wp_atomicCopyFile hq htmp hroot hg (fun t ht => ?_) fun _ _ _ _ _ => trivial
    exact ⟨rfl, t, 3, rfl, .file hg ht⟩

theorem wp_restoreFn_dry (hq : w.plan = []) (hk : w.srcTree.kind q = some k) :
    WP (restoreFn true q (.ok k)) (fun c w' => c = .next ∧ w' = w) (fun _ _ => True) w := by
  obtain ⟨node, hg, rfl⟩ := Option.map_eq_some_iff.1 hk
  simp only [restoreFn, WP.bind_iff]
  refine WP.of_ok (pollCtx_run hq) ?_
  by_cases hroot : q = []
  · rw [if_pos hroot]
    exact ⟨rfl, rfl⟩
  simp only [hroot, if_false, WP.bind_iff]
  refine WP.of_ok (lstat_src_ok hq (.inl hroot) hg) ?_
  simp only [orFail_joinUnder]
  cases node <;> exact ⟨rfl, rfl⟩

/-- The worlds a restore passes through. -/
def Refilled (w w' : World Trees) : Prop := ∃ t n, w' = w.setDst t n

/-- A restore meets the same backup all along, and skips no directory. -/
theorem steady_restoreFn (hq : w.plan = []) (htmp : w.tmp = none) (dryRun : Bool) :
    Steady (restoreFn dryRun) .src w.srcTree (fun _ => true) (Refilled w) where
  list := by
    rintro _ p ⟨t, n, rfl⟩ hd
    exact liftSys_ok (s := w.setDst t n) (readDir_src_run (w := w.setDst t n) hq hd)
  call := by
    rintro _ p k ⟨t, n, rfl⟩ hk
    have hcall : WP (restoreFn dryRun p (.ok k)) (fun c w' => c = .next ∧ Refilled (w.setDst t n) w')
        (fun _ _ => True) (w.setDst t n) := by
      cases dryRun with
      | true =>
        refine (wp_restoreFn_dry (w := w.setDst t n) hq hk).mono ?_ fun _ _ h => h
        rintro c _ ⟨hc, rfl⟩
        exact ⟨hc, _, 0, rfl⟩
      | false =>
        refine (wp_restoreFn (w := w.setDst t n) hq htmp hk).mono ?_ fun _ _ h => h
        rintro c _ ⟨hc, t', n', rfl, -⟩
        exact ⟨hc, t', n', rfl⟩
    refine hcall.mono ?_ fun _ _ h => h
    rintro c _ ⟨hc, t', n', rfl⟩
    exact ⟨⟨t', n + n', World.setDst_setDst ..⟩, by simp [hc]⟩
  report := fun s _ e => ⟨e, s, rfl⟩

/-- `restoreFiles` of a backup that is a directory goes over the paths of the backup. -/
theorem restoreFiles_iff (hq : w.plan = []) (htmp : w.tmp = none) (hlink : w.disk.src.link = none)
    (hroot : w.srcTree.IsDir []) (dryRun : Bool) {Q : Unit → World Trees → Prop}
    {E : Err → World Trees → Prop} :
    WP (restoreFiles dryRun) Q E w ↔
      WP (visitAll (restoreFn dryRun) (visits w.srcTree (fun _ => true) w.pathMax [])) Q E w := by
  obtain ⟨a, ha⟩ := Tree.isDir_iff.1 hroot
  have hstart : Refilled w w := ⟨w.dstTree, 0, rfl⟩
  have hkind : w.srcTree.kind [] = some (Node.dir a).info.kind := Tree.kind_of_get ha
  exact (steady_restoreFn hq htmp dryRun).wp_walk hstart hkind
    (liftSys_ok (s := w) (attempt_ok (lstat_src_ok hq (.inr hlink) ha)))

/-- **`restoreFiles`** of a backup that is a directory: every path of it has been visited. -/
theorem wp_restoreFiles (hq : w.plan = []) (htmp : w.tmp = none) (hlink : w.disk.src.link = none)
    (hroot : w.srcTree.IsDir []) :
    WP (restoreFiles false)
      (fun _ w' => ∃ t n l, w' = w.setDst t n ∧
        RestorePass w.srcTree (Set.range w.clock) w.umask w.dstTree l t ∧
          ∀ p, w.srcTree.Has p → p ∈ l)
      (fun _ _ => True) w := by
  rw [restoreFiles_iff hq htmp hlink hroot]
  refine (WP.forM (fun done w' => (∀ v ∈ done, ∀ e, v.2 ≠ .error e) ∧ ∃ t n, w' = w.setDst t n ∧
    RestorePass w.srcTree (Set.range w.clock) w.umask w.dstTree (done.map Prod.fst) t) ?_ ?_).mono ?_
    fun _ _ h => h
  · exact ⟨by simp, w.dstTree, 0, rfl, .nil⟩
  · rintro done ⟨q, entry⟩ rest _ hl ⟨hok, t, n, rfl, hpass⟩
    simp only [WP.bind_iff, WP.pure_iff]
    rcases next_visit hroot.has hl with ⟨k, rfl, hvk⟩ | ⟨rfl, -⟩
    · refine (wp_restoreFn (w := w.setDst t n) hq htmp hvk).mono ?_ fun _ _ h => h
      rintro c _ ⟨-, t', n', rfl, hstep⟩
      refine ⟨fun v hv e => ?_, t', n + n', World.setDst_setDst .., ?_⟩
      · rcases List.mem_append.1 hv with hv | hv
        · exact hok v hv e
        · rw [List.mem_singleton.1 hv]
          simp
      · rw [List.map_append, List.map_singleton]
        refine hpass.snoc (Tree.has_of_kind hvk) (fun x hx => ?_) hstep
        obtain ⟨v, hv, rfl⟩ := List.mem_map.1 hx
        exact fresh_of_visit hroot.has hl hv
    · trivial
  · rintro _ _ ⟨hok, t, n, rfl, hpass⟩
    refine ⟨t, n, _, rfl, hpass, fun p hp => ?_⟩
    obtain ⟨k, hk⟩ := mem_visits w.pathMax [] p List.nil_prefix hp (fun _ _ _ _ => rfl) hok
    exact List.mem_map.2 ⟨_, hk, rfl⟩

theorem wp_restoreFiles_dry (hq : w.plan = []) (htmp : w.tmp = none) (hlink : w.disk.src.link = none)
    (hroot : w.srcTree.IsDir []) :
    WP (restoreFiles true) (fun _ w' => w' = w) (fun _ _ => True) w := by
  rw [restoreFiles_iff hq htmp hlink hroot]
  refine WP.forM (fun _ w' => w' = w) rfl ?_
  rintro done ⟨q, entry⟩ rest _ hl hw
  rw [hw]
  simp only [WP.bind_iff, WP.pure_iff]
  rcases next_visit hroot.has hl with ⟨k, rfl, hvk⟩ | ⟨rfl, -⟩
  · exact (wp_restoreFn_dry hq hvk).mono (fun _ _ h => h.2) fun _ _ h => h
  · trivial

/-- **A backup that is a link**: the walk meets the link and nothing else. -/
theorem wp_restoreFiles_link (hq : w.plan = []) {a : Attr} (hlink : w.disk.src.link = some a)
    (dryRun : Bool) : WP (restoreFiles dryRun) (fun _ w' => w' = w) (fun _ _ => False) w := by
  rw [restoreFiles, wp_walk_ok (liftSys_ok (s := w) (attempt_ok (lstat_src_link hq hlink)))]
  refine wp_walkDir_leaf (by simp [Attr.info]) ?_
  simp only [restoreFn, WP.bind_iff]
  exact WP.of_ok (pollCtx_run hq) rfl

end

end Dockerset.Netfin

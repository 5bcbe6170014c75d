import Dockerset.Netfin.Sync
import Dockerset.Netfin.SafeioQuiet

/-!
# The syncer in a quiet world

What the syncer's operations on one path do when nothing else happens: they
move the destination tree and the state map, and nothing else (`Run.move`). Each
rule lists every way the operation can end.
-/

namespace Dockerset.Netfin
open Go Os Logic

/-- Nothing is planned, no copy is under way, and this is not a dry run. -/
structure Run.Quiet (r : Run Trees) : Prop where
  plan : r.world.plan = []
  tmp : r.world.tmp = none
  live : r.syncer.dryRun = false

namespace Run

/-- The source tree, the destination tree and the state map. -/
abbrev src (r : Run Trees) : Tree := r.world.srcTree
abbrev dst (r : Run Trees) : Tree := r.world.dstTree
abbrev state (r : Run Trees) : StateMap := r.syncer.state

/-- The times at which directories can be stamped. -/
abbrev times (r : Run Trees) : Set Time := Set.range r.world.clock

/-- The destination tree has become `t`, by `n` changes, and the state map `m`. -/
def move (r : Run Trees) (t : Tree) (n : Nat) (m : StateMap) : Run Trees :=
  { r with world := r.world.setDst t n, syncer := { r.syncer with state := m } }

variable (r : Run Trees) (t t' : Tree) (n n' : Nat) (m m' : StateMap)

@[simp] theorem move_world : (r.move t n m).world = r.world.setDst t n := rfl
@[simp] theorem move_state : (r.move t n m).syncer.state = m := rfl
@[simp] theorem move_excluder : (r.move t n m).syncer.excluder = r.syncer.excluder := rfl
@[simp] theorem move_dryRun : (r.move t n m).syncer.dryRun = r.syncer.dryRun := rfl
@[simp] theorem move_pending : (r.move t n m).syncer.pending = r.syncer.pending := rfl
@[simp] theorem move_reconciled : (r.move t n m).syncer.reconciled = r.syncer.reconciled := rfl
@[simp] theorem move_seen : (r.move t n m).seen = r.seen := rfl

@[simp] theorem move_move : (r.move t n m).move t' n' m' = r.move t' (n + n') m' := by
  simp [move, World.setDst_setDst]

@[simp] theorem move_self : r.move r.dst 0 r.state = r := rfl

variable {r t n m} in
theorem Quiet.move (h : r.Quiet) : (r.move t n m).Quiet := ⟨h.plan, h.tmp, h.live⟩

end Run

theorem mem_statePaths {s : Syncer} {q : Path} : q ∈ s.statePaths ↔ s.state.lookup q ≠ none := by
  rw [Syncer.statePaths, List.mem_insertionSort, AList.mem_keys_iff_lookup, Option.ne_none_iff_exists']

theorem hasStateTree_iff {s : Syncer} {p : Path} :
    s.hasStateTree p = true ↔ ∃ q, inStateTree p q = true ∧ s.state.lookup q ≠ none := by
  simp only [Syncer.hasStateTree, List.any_eq_true, AList.mem_keys_iff_lookup, Option.ne_none_iff_exists',
    and_comm]

@[simp] theorem orFail_joinUnder {σ : Type} (side : Side) (p : Path) :
    (orFail (joinUnder side p.str) : EStateM Err σ Loc) = pure ⟨side, p⟩ := by
  rw [joinUnder_path]
  rfl

theorem preserves_tryCall {σ α : Type} {I : σ → Prop} {x : EStateM Err σ α} (h : Preserves I x) :
    Preserves I (tryCall x) := by
  intro s hs
  have hx := h s hs
  unfold WP at hx ⊢
  simp only [tryCall, EStateM.run] at hx ⊢
  cases hr : x s with
  | ok a s' => rw [hr] at hx; exact hx
  | error e s' => rw [hr] at hx; exact hx

/-! ## The state map -/

theorem inStateTree_iff {p q : Path} (hp : p ≠ []) : inStateTree p q = true ↔ p <+: q := by
  rw [inStateTree, Bool.or_eq_true, beq_iff_eq, hasPathPrefix_str hp]
  constructor
  · rintro (rfl | h)
    · exact List.prefix_rfl
    · exact h.1
  · intro h
    by_cases he : q = p
    · exact .inl he
    · exact .inr ⟨h, Ne.symm he⟩

/-- The test with which `removeDeletedFromStateUnder` passes over a path. -/
theorem outside_iff {root rel : Path} :
    (root ≠ [] ∧ rel ≠ root ∧ ¬ hasPathPrefix rel.str (root.str ++ ['/'])) ↔ ¬ root <+: rel := by
  by_cases hroot : root = []
  · simp [hroot]
  · have h := inStateTree_iff (q := rel) hroot
    rw [inStateTree, Bool.or_eq_true, beq_iff_eq] at h
    rw [← h]
    simp [hroot]

theorem lookup_prune {m : StateMap} {p : Path} (hp : p ≠ []) (q : Path) :
    (StateMap.prune m p).lookup q = if p <+: q then none else m.lookup q := by
  rw [StateMap.prune, AList.lookup_filterKeys]
  simp only [Bool.not_eq_true', Bool.eq_false_iff, ne_eq, inStateTree_iff hp, ite_not]

theorem lookup_prune_root {m : StateMap} {p : Path} (hp : p ≠ []) (h : m.lookup [] = none) :
    (StateMap.prune m p).lookup [] = none := by
  rw [lookup_prune hp]
  split
  · rfl
  · exact h

section

variable {r : Run Trees} {p : Path} {Q : Unit → Run Trees → Prop} {E : Err → Run Trees → Prop}

theorem wp_modifySyncer_iff {f : Syncer → Syncer} :
    WP (modifySyncer f) Q E r ↔ Q () { r with syncer := f r.syncer } := Iff.rfl

theorem wp_rememberState (hr : r.Quiet) {st : PathState}
    (h : Q () (r.move r.dst 0 (r.state.insert p st))) : WP (rememberState p st) Q E r := by
  rw [rememberState, wp_modifySyncer_iff, Syncer.remember, if_neg (by simp [hr.live])]
  exact h

theorem wp_forgetState (hr : r.Quiet) (h : Q () (r.move r.dst 0 (r.state.erase p))) :
    WP (forgetState p) Q E r := by
  rw [forgetState, wp_modifySyncer_iff, Syncer.forget, if_neg (by simp [hr.live])]
  exact h

theorem wp_forgetStateTree (hr : r.Quiet) (h : Q () (r.move r.dst 0 (StateMap.prune r.state p))) :
    WP (forgetStateTree p) Q E r := by
  rw [forgetStateTree, wp_modifySyncer_iff, Syncer.forgetTree, if_neg (by simp [hr.live])]
  exact h

/-- **`syncDir`**: the directory is known, or it is made, or an ancestor is in the way. -/
theorem wp_syncDir (hr : r.Quiet) {info : Info}
    (hskip : r.state.lookup p = some (pathStateFromInfo .dir info) → Q () r)
    (hmade : ∀ t, Tree.MadeDirs r.times (info.perm &&& ~~~r.world.umask) p r.dst t →
      Q () (r.move t 1 (r.state.insert p (pathStateFromInfo .dir info))))
    (herr : ∀ e, (∃ q, q <+: p ∧ r.dst.Has q ∧ ¬ r.dst.IsDir q) → E e r) :
    WP (syncDir p info) Q E r := by
  simp only [syncDir, stateMatches, getSyncer, WP.bind_iff, WP.get_iff, WP.pure_iff]
  split
  · next h => exact hskip (by simpa using h)
  · simp only [ensureDir, orFail_joinUnder, getSyncer, WP.bind_iff, WP.get_iff, WP.pure_iff, hr.live,
      Bool.false_eq_true, if_false, wp_liftSys_iff]
    refine wp_mkdirAll_dst hr.plan (fun t ht => ?_) fun e he => ?_
    · exact wp_rememberState (r := r.move t 1 r.state) hr.move
        (hmade t (Tree.mkdirAll_spec (Set.mem_range_self _) ht))
    · exact herr _ (Tree.mkdirAll_error he)

/-- The backup at `p` reports the metadata `i`, whatever kind of file it is. -/
def Reports (t : Tree) (p : Path) (i : Info) : Prop :=
  ∃ j, t.stat p = .ok j ∧ j.perm = i.perm ∧ j.size = i.size ∧ j.mtime = i.mtime

instance (t : Tree) (p : Path) (i : Info) : Decidable (Reports t p i) :=
  match h : t.stat p with
  | .ok j =>
    decidable_of_iff (j.perm = i.perm ∧ j.size = i.size ∧ j.mtime = i.mtime)
      ⟨fun hm => ⟨j, h, hm⟩, fun ⟨_, hj, hm⟩ => by rw [h] at hj; cases hj; exact hm⟩
  | .error e => .isFalse fun ⟨_, hj, _⟩ => by rw [h] at hj; cases hj

theorem reports_iff {t : Tree} {p : Path} {i : Info} : Reports t p i ↔ ∃ n, t.get p = some n ∧
    n.kind ≠ .symlink ∧ n.info.perm = i.perm ∧ n.info.size = i.size ∧ n.info.mtime = i.mtime := by
  simp only [Reports, Tree.stat_eq_ok]
  constructor
  · rintro ⟨_, ⟨n, hg, hk, rfl⟩, hm⟩
    exact ⟨n, hg, hk, hm⟩
  · rintro ⟨n, hg, hk, hm⟩
    exact ⟨_, ⟨n, hg, hk, rfl⟩, hm⟩

theorem Reports.congr {t t' : Tree} {i : Info} (h : Reports t p i) (ht : t'.get p = t.get p) :
    Reports t' p i := by
  rw [reports_iff] at h ⊢
  rwa [ht]

theorem reports_file {t : Tree} {f : File} (h : t.get p = some (.file f)) : Reports t p f.info :=
  reports_iff.2 ⟨_, h, by simp, rfl, rfl, rfl⟩

/-- **`fileMetadataMatches`** answers whether the backup reports the metadata. -/
theorem wp_fileMetadataMatches {w : World Trees} {Q : Bool → World Trees → Prop}
    {E : Err → World Trees → Prop} (hq : w.plan = []) {i : Info}
    (htrue : Reports w.dstTree p i → Q true w) (hfalse : ¬ Reports w.dstTree p i → Q false w) :
    WP (fileMetadataMatches ⟨.dst, p⟩ i) Q E w := by
  have hcall : Disk.stat w.disk ⟨.dst, p⟩ = w.dstTree.stat p := rfl
  rw [fileMetadataMatches, WP.bind_iff, wp_attempt_iff]
  refine wp_query hq (fun j hj => ?_) fun e he => ?_
  · rw [hcall] at hj
    rw [WP.pure_iff]
    by_cases h : Reports w.dstTree p i
    · obtain ⟨j', hj', hm⟩ := id h
      rw [hj] at hj'
      cases hj'
      simpa [hm] using htrue h
    · convert hfalse h using 1
      rw [Bool.eq_false_iff]
      intro hm
      simp only [Bool.and_eq_true, beq_iff_eq] at hm
      exact h ⟨j, hj, hm.1.1, hm.1.2, hm.2⟩
  · rw [hcall] at he
    refine hfalse ?_
    rintro ⟨j, hj, -⟩
    rw [he] at hj
    cases hj

/-- **`copyRel`** of a regular file: the file is known, or its backup already
reports its metadata, or it is copied, or there is no room for it. -/
theorem wp_copyRel (hr : r.Quiet) (hp : p ≠ []) {f : File} (hsrc : r.src.get p = some (.file f))
    (hskip : r.state.lookup p = some (pathStateFromInfo .file f.info) → Q () r)
    (hmatch : Reports r.dst p f.info →
      Q () (r.move r.dst 0 (r.state.insert p (pathStateFromInfo .file f.info))))
    (hcopy : ∀ t, ¬ Reports r.dst p f.info → Copied r.times (0o755 &&& ~~~r.world.umask) p f r.dst t →
      Q () (r.move t 3 (r.state.insert p (pathStateFromInfo .file f.info))))
    (herr : ∀ e t n, Grown r.dst t →
      (r.dst.IsDir p ∨ ∃ q, q <+: p.dropLast ∧ r.dst.Has q ∧ ¬ r.dst.IsDir q) →
      E e (r.move t n r.state)) :
    WP (copyRel p f.info) Q E r := by
  simp only [copyRel, stateMatches, getSyncer, WP.bind_iff, WP.get_iff, WP.pure_iff]
  split
  · next h => exact hskip (by simpa using h)
  · simp only [orFail_joinUnder, WP.pure_iff, WP.bind_iff, wp_liftSys_iff]
    refine wp_fileMetadataMatches hr.plan (fun h => ?_) fun h => ?_
    · exact wp_rememberState hr (hmatch h)
    · simp only [Bool.false_eq_true, if_false, WP.bind_iff, WP.get_iff, WP.pure_iff, wp_liftSys_iff]
      change WP (atomicCopyFile _ _ _ _ r.syncer.dryRun) _ _ r.world
      rw [hr.live]
      refine wp_atomicCopyFile hr.plan hr.tmp hp hsrc (fun t ht => ?_) fun e t n hg hno => ?_
      · exact wp_rememberState (r := r.move t 3 r.state) hr.move (hcopy t h ht)
      · exact herr e t n hg hno

/-- **`removeBackupPath`**. -/
theorem wp_removeBackupPath (hr : r.Quiet) (hp : p ≠ [])
    (hok : ∀ t, Tree.Pruned r.times p r.dst t → Q () (r.move t 1 (StateMap.prune r.state p)))
    (herr : ∀ e, r.dst.missing p ≠ .ENOENT → ¬ r.dst.Has p → E e r) :
    WP (removeBackupPath p ⟨.dst, p⟩) Q E r := by
  simp only [removeBackupPath, getSyncer, WP.bind_iff, WP.get_iff, WP.pure_iff, wp_liftSys_iff, hr.live]
  refine wp_removePath hr.plan hp (fun t ht => ?_) herr
  exact wp_forgetStateTree (r := r.move t 1 r.state) hr.move (hok t ht)

/-- **`removeKnownBackupPath`**: nothing happens to a path of which nothing is known. -/
theorem wp_removeKnownBackupPath (hr : r.Quiet) (hp : p ≠ [])
    (hno : (∀ q, inStateTree p q → r.state.lookup q = none) → Q () r)
    (hok : ∀ t q, inStateTree p q → r.state.lookup q ≠ none → Tree.Pruned r.times p r.dst t →
      Q () (r.move t 1 (StateMap.prune r.state p)))
    (herr : ∀ e, r.dst.missing p ≠ .ENOENT → ¬ r.dst.Has p → E e r) :
    WP (removeKnownBackupPath p ⟨.dst, p⟩) Q E r := by
  simp only [removeKnownBackupPath, getSyncer, WP.bind_iff, WP.get_iff, WP.pure_iff]
  split
  · next h =>
    apply hno
    intro q hq
    by_contra hne
    rw [hasStateTree_iff.2 ⟨q, hq, hne⟩] at h
    cases h
  · next h =>
    obtain ⟨q, hq, hne⟩ := hasStateTree_iff.1 (by simpa using h)
    exact wp_removeBackupPath hr hp (fun t ht => hok t q hq hne ht) herr

end

end Dockerset.Netfin

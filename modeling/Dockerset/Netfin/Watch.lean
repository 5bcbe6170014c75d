import Dockerset.Netfin.DeepReconcile
import Dockerset.Netfin.SafePath

/-!
# Watching the source (`addWatchTree`, `handleEvent`)

The watcher is added to directories one by one, by a walk that leaves out what is excluded,
and again for each directory that appears later. An event is turned into an entry of the
pending map. `watch_matches_mirror` compares the walk with the one of `Reconcile`: what is
in a watched directory is what is backed up.
-/

namespace Dockerset.Netfin
open Go Os Logic

/-! ## The functions -/

/-- The syncer with its watcher: the directories that were added to it, what it answers when
another one is to be added, and whether the debounce timer runs or has fired and was not
received from. -/
structure Watching (D : Type) where
  run : Run D
  watched : List Path
  refusal : List Path → Path → Option Err
  armed : Bool

abbrev WatchM (D : Type) := EStateM Err (Watching D)

instance (D : Type) : HasWorld D (Watching D) :=
  ⟨fun s => s.run.world, fun s w => { s with run := { s.run with world := w } }⟩

/-- `fsnotify.Event`: the path, and the operations it reports, of which three matter. -/
structure FsEvent where
  name : Str
  create : Bool
  rename : Bool
  remove : Bool
deriving DecidableEq

section

variable {D : Type} [Disk D]

/-- `watcher.Add(path)`. -/
def watcherAdd (p : Path) : WatchM D Unit := do
  let s ← get
  match s.refusal s.watched p with
  | some e => throw e
  | none => modify fun s => { s with watched := s.watched ++ [p] }

/-- The callback of `addWatchTreeAt`. -/
def watchFn : WalkFn (Watching D) := fun p entry => do
  match entry with
  | .error e => throw e
  | .ok k =>
    if (← get).run.syncer.excluder.excluded p then return (if k = .dir then .skipDir else .next)
    -- entry.Info()
    let info ← liftSys (lstat ⟨.src, p⟩)
    if info.kind = .symlink then return (if k = .dir then .skipDir else .next)
    if k ≠ .dir then return .next
    watcherAdd p
    return .next

def addWatchTreeAt (root : Path) : WatchM D Unit := walk watchFn ⟨.src, root⟩

def addWatchTree : WatchM D Unit := addWatchTreeAt []

/-- `queue(rel, tree)`. -/
def queue (p : Path) (tree : Bool) : WatchM D Unit :=
  modify fun s => { s with run := { s.run with syncer := { s.run.syncer with
    pending := s.run.syncer.pending.insert p ((s.run.syncer.pending.lookup p).getD false || tree) } } }

/-- The event is the appearance of a directory, which is then watched. -/
def watchNew (e : FsEvent) (p : Path) : WatchM D Bool := do
  if e.create || e.rename then
    match ← liftSys (attempt (lstat ⟨.src, p⟩)) with
    | .ok info =>
      if info.kind = .dir then
        -- an error is logged
        let _ ← tryCall (addWatchTreeAt p)
        return true
      else return false
    | .error _ => return false
  else return false

/-- The entry that `handleEvent` queues for an event at `p`. -/
def eventEntry (e : FsEvent) (p : Path) : WatchM D PendingEntry := do
  if ← watchNew e p then return ⟨p, true⟩
  let kind := ((← get).run.syncer.state.lookup p).map PathState.kind
  return ⟨p, (e.remove || e.rename) && kind == some .dir⟩

/-- `handleEvent(event)`, with what it queues. The path of the event is one below the root,
or it is ignored. -/
def handleEvent (getwd : Getwd) (src : Str) (e : FsEvent) : WatchM D (Option PendingEntry) := do
  if e.name = [] then return none
  match SafePath.safeRel getwd src e.name with
  | .error _ => return none
  | .ok rel =>
    if rel = ['.'] then return none
    let entry ← eventEntry e (clean rel).comps
    queue entry.rel entry.tree
    return some entry

end

/-! ## Which directories are watched -/

/-- More directories have been added to the watcher. -/
def Watching.adding {D : Type} (s : Watching D) (dirs : List Path) : Watching D :=
  { s with watched := s.watched ++ dirs }

section

variable {s : Watching Trees} {p q : Path}

theorem wp_watcherAdd (q : Path) (s : Watching Trees) :
    WP (watcherAdd q) (fun _ s' => s' = s.adding [q]) (fun _ _ => True) s := by
  rw [watcherAdd, WP.bind_iff, WP.get_iff]
  cases s.refusal s.watched q with
  | some e => trivial
  | none => exact rfl

/-- One call of the callback: a directory that is not excluded is added, unless the watcher
refuses it. -/
theorem wp_watchFn (hr : s.run.Quiet) (hlink : s.run.world.disk.src.link = none) {k : Kind}
    (hk : s.run.src.kind q = some k) :
    WP (watchFn q (.ok k))
      (fun c s' => c = (if k = .dir ∧ s.run.syncer.excluder.excluded q = true then .skipDir else .next) ∧
        s' = s.adding (if k = .dir ∧ s.run.syncer.excluder.excluded q = false then [q] else []))
      (fun _ _ => True) s := by
  obtain ⟨node, hg, rfl⟩ := Option.map_eq_some_iff.1 hk
  simp only [watchFn, WP.bind_iff, WP.get_iff]
  cases hex : s.run.syncer.excluder.excluded q with
  | true =>
    simp [WP.pure_iff, Watching.adding]
  | false =>
    simp only [Bool.false_eq_true, if_false, WP.bind_iff, wp_liftSys_iff, and_false, and_true]
    refine WP.of_ok (lstat_src_ok hr.plan (.inr hlink) hg) ?_
    cases node with
    | symlink a => exact ⟨rfl, by simp [Watching.adding, HasWorld.setWorld]⟩
    | file f => exact ⟨rfl, by simp [Watching.adding, HasWorld.setWorld]⟩
    | special a => exact ⟨rfl, by simp [Watching.adding, HasWorld.setWorld]⟩
    | dir a =>
      change WP (do watcherAdd q; pure Ctl.next) _ _ _
      rw [WP.bind_iff]
      exact (wp_watcherAdd q _).mono (fun _ _ h => ⟨rfl, h⟩) fun _ _ _ => trivial

theorem Watching.adding_adding (s : Watching Trees) (l l' : List Path) :
    (s.adding l).adding l' = s.adding (l ++ l') := by
  simp [adding]

theorem Watching.adding_nil (s : Watching Trees) : s.adding [] = s := by
  simp [adding]

theorem steady_watchFn (hr : s.run.Quiet) (hlink : s.run.world.disk.src.link = none) :
    Steady watchFn .src s.run.src (fun q => !s.run.syncer.excluder.excluded q)
      (fun s' => ∃ l, s' = s.adding l) where
  list := by
    rintro s' q ⟨l, rfl⟩ hd
    exact liftSys_ok (s := s.adding l) (readDir_src_run hr.plan hd)
  call := by
    rintro s' q k ⟨l, rfl⟩ hk
    refine (wp_watchFn (s := s.adding l) hr hlink hk).mono ?_ fun _ _ _ => trivial
    rintro c s'' ⟨rfl, rfl⟩
    exact ⟨⟨_, s.adding_adding l _⟩, by simp only [Bool.not_eq_false']; rfl⟩
  report := fun s' q e => ⟨e, s', rfl⟩

/-- A directory at or below `p` with nothing excluded on the way. -/
structure Watchable (S : Tree) (ex : Path → Bool) (p q : Path) : Prop where
  below : p <+: q
  dir : S.IsDir q
  kept : ∀ d, p <+: d → d <+: q → ex d = false

/-- The directories among those visited that are added. -/
def addedOf (S : Tree) (ex : Path → Bool) (l : List (Path × Except Err Kind)) : List Path :=
  (l.map Prod.fst).filter fun q => decide (S.kind q = some .dir) && !ex q

section Order

variable {S : Tree} {ex : Path → Bool} {fuel : Nat} {l : List (Path × Except Err Kind)}

theorem mem_addedOf : q ∈ addedOf S ex l ↔ (∃ v ∈ l, v.1 = q) ∧ S.IsDir q ∧ ex q = false := by
  simp [addedOf, Tree.IsDir]

theorem addedOf_concat {k : Kind} (hk : S.kind q = some k) {entry : Except Err Kind} :
    addedOf S ex (l ++ [(q, entry)]) =
      addedOf S ex l ++ if k = .dir ∧ ex q = false then [q] else [] := by
  rw [addedOf, addedOf, List.map_append, List.filter_append, List.map_singleton, List.filter_singleton, hk]
  cases hd : decide (k = .dir) <;> cases he : ex q <;> simp_all

theorem nodup_addedOf (hp : S.Has p) (hok : ∀ v ∈ visits S (fun q => !ex q) fuel p, ∀ e, v.2 ≠ .error e) :
    (addedOf S ex (visits S (fun q => !ex q) fuel p)).Nodup := by
  apply List.Nodup.filter
  apply List.pairwise_map.2
  apply (visits_pairwise (fun q => !ex q) fuel p hp).imp_of_mem
  intro a b ha hb hab heq
  obtain ⟨e, he⟩ := hab (by rw [heq])
  exact hok b hb e he

end Order

/-- **The walk of `addWatchTreeAt`** adds the watchable directories, each once, or it fails. -/
theorem wp_addWatchTreeAt (hr : s.run.Quiet) (hlink : s.run.world.disk.src.link = none)
    (hp : s.run.src.Has p) :
    WP (addWatchTreeAt p)
      (fun _ s' => ∃ dirs, s' = s.adding dirs ∧ dirs.Nodup ∧
        ∀ q, q ∈ dirs ↔ Watchable s.run.src s.run.syncer.excluder.excluded p q)
      (fun _ _ => True) s := by
  obtain ⟨node, hg⟩ := Tree.has_iff.1 hp
  have hsteady := steady_watchFn hr hlink
  have hkind : s.run.src.kind p = some node.info.kind := Tree.kind_of_get hg
  rw [addWatchTreeAt, hsteady.wp_walk ⟨[], s.adding_nil.symm⟩ hkind
    (liftSys_ok (attempt_ok (lstat_src_ok hr.plan (.inr hlink) hg)))]
  refine (WP.forM (fun done s' => (∀ v ∈ done, ∀ e, v.2 ≠ .error e) ∧
    s' = s.adding (addedOf s.run.src s.run.syncer.excluder.excluded done)) ?_ ?_).mono ?_ fun _ _ h => h
  · exact ⟨by simp, s.adding_nil.symm⟩
  · rintro done ⟨q, entry⟩ rest _ hl ⟨hok, rfl⟩
    have hl' : visits s.run.src (fun q => !s.run.syncer.excluder.excluded q) s.run.world.pathMax p =
      done ++ (q, entry) :: rest := hl
    simp only [WP.bind_iff, WP.pure_iff]
    rcases next_visit hp hl' with ⟨k, rfl, hk⟩ | ⟨rfl, -⟩
    · have hcall := wp_watchFn (s := s.adding (addedOf s.run.src s.run.syncer.excluder.excluded done))
        hr hlink hk
      refine hcall.mono ?_ fun _ _ _ => trivial
      rintro c s' ⟨-, rfl⟩
      refine ⟨?_, by rw [addedOf_concat hk, s.adding_adding]; rfl⟩
      intro v hv e
      rcases List.mem_append.1 hv with hv | hv
      · exact hok v hv e
      · rw [List.mem_singleton.1 hv]
        simp
    · trivial
  · rintro _ s' ⟨hok, rfl⟩
    refine ⟨_, rfl, nodup_addedOf hp hok, fun q => ⟨fun hq => ?_, fun hq => ?_⟩⟩
    · obtain ⟨⟨v, hv, rfl⟩, hd, hex⟩ := mem_addedOf.1 hq
      obtain ⟨hbelow, hent, -⟩ := of_mem_visits _ p hp v hv
      refine ⟨hbelow, hd, fun d hpd hdv => ?_⟩
      by_cases he : d = v.1
      · rw [he, hex]
      · simpa using hent d hpd hdv he
    · obtain ⟨k, hk⟩ := mem_visits s.run.world.pathMax p q hq.below hq.dir.has
        (fun d h1 h2 _ => by simp [hq.kept d h1 h2]) hok
      exact mem_addedOf.2 ⟨⟨_, hk, rfl⟩, hq.dir, hq.kept q hq.below List.prefix_rfl⟩

/-- A directory below the root is watchable exactly when it is reached. -/
theorem watchable_iff_reach {S : Tree} {ex : Path → Bool} (hq : q ≠ []) :
    Watchable S ex [] q ↔ Reach S ex [] q ∧ S.IsDir q := by
  constructor
  · intro h
    obtain ⟨a, ha⟩ := Tree.isDir_iff.1 h.dir
    exact ⟨⟨List.nil_prefix, hq, ⟨_, ha, by simp⟩, h.kept⟩, h.dir⟩
  · rintro ⟨h, hd⟩
    exact ⟨List.nil_prefix, hd, h.kept⟩

/-- What is reached is in a watchable directory, and so is nothing else but what is excluded
itself, or a link. -/
theorem reach_concat_iff {S : Tree} {ex : Path → Bool} {x : Name} :
    Reach S ex [] (q ++ [x]) ↔ Watchable S ex [] q ∧ ex (q ++ [x]) = false ∧
      ∃ n, S.get (q ++ [x]) = some n ∧ n.kind ≠ .symlink := by
  constructor
  · intro h
    obtain ⟨n, hn, hk⟩ := h.node
    have hdir : S.IsDir q := Tree.isDir_of_above (Tree.has_of_get hn) (List.prefix_append _ _) (by simp)
    exact ⟨⟨List.nil_prefix, hdir, fun d h0 hdq => h.kept d h0 (hdq.trans (List.prefix_append _ _))⟩,
      h.kept _ List.nil_prefix List.prefix_rfl, n, hn, hk⟩
  · rintro ⟨hq, hex, n, hn, hk⟩
    refine ⟨List.nil_prefix, by simp, ⟨n, hn, hk⟩, fun d h0 hd => ?_⟩
    rcases List.prefix_concat_iff.1 hd with rfl | hd
    · exact hex
    · exact hq.kept d h0 hd

/-- **The watcher sees what is backed up.** `runWatching` adds watches and then reconciles.
When both succeed, the watched directories are the root and the directories that
`Reconcile` has seen, each watched once; and an entry of the source that `Reconcile` has
seen is in a watched directory, which otherwise holds excluded entries and links only. -/
theorem watch_matches_mirror {s' : Watching Trees} {r' : Run Trees} (hr : s.run.Idle)
    (hlink : s.run.world.disk.src.link = none) (hroot : s.run.src.IsDir []) (hnone : s.watched = [])
    (hwatch : addWatchTree.run s = .ok () s') (hrec : reconcile.run s'.run = .ok () r') :
    s'.watched.Nodup ∧
    (∀ d, d ∈ s'.watched ↔ d = [] ∨ (d ∈ r'.seen ∧ s.run.src.IsDir d)) ∧
    ∀ q x, q ++ [x] ∈ r'.seen ↔ q ∈ s'.watched ∧ s.run.syncer.excluder.excluded (q ++ [x]) = false ∧
      ∃ n, s.run.src.get (q ++ [x]) = some n ∧ n.kind ≠ .symlink := by
  obtain ⟨dirs, rfl, hnodup, hdirs⟩ := (wp_addWatchTreeAt hr.toQuiet hlink hroot.has).ok hwatch
  obtain ⟨seen, t₁, m₁, t, n, m, hfull, -, rfl⟩ := (wp_reconcile hr.toQuiet hr.rootState).ok hrec
  have hwatched : (s.adding dirs).watched = dirs := by
    rw [Watching.adding, hnone, List.nil_append]
  have hseen : ∀ q, q ∈ seen ↔ Reach s.run.src s.run.syncer.excluder.excluded [] q := by
    intro q
    rw [hfull.2 q]
    exact iff_of_eq (congrArg (Reach · _ [] q) (Run.walked_eq_src hlink))
  have hrootWatched : Watchable s.run.src s.run.syncer.excluder.excluded [] [] :=
    ⟨List.prefix_rfl, hroot, fun d _ hd => by rw [List.prefix_nil.1 hd]; rfl⟩
  rw [hwatched]
  refine ⟨hnodup, ?_, ?_⟩
  · intro d
    rw [hdirs]
    change _ ↔ d = [] ∨ (d ∈ seen ∧ _)
    rw [hseen]
    by_cases hd : d = []
    · simp only [hd, true_or, iff_true]
      exact hrootWatched
    · simp only [hd, false_or]
      exact watchable_iff_reach hd
  · intro q x
    rw [hdirs]
    change q ++ [x] ∈ seen ↔ _
    rw [hseen]
    exact reach_concat_iff

end

/-- A source with a directory `a`, a file `a/x`, and a file `b` that is excluded. -/
def watchedWorld : World Trees :=
  .still
    (.ofList [([], .dir ⟨0o755, 4096, 1⟩), ([nameA], .dir ⟨0o755, 4096, 2⟩),
      ([nameA, nameX], .file ⟨0o644, 3, [1]⟩), ([nameB], .file ⟨0o644, 4, [2]⟩)])
    (.ofList [([], .dir ⟨0o755, 4096, 1⟩)])
    fun n => 100 + n

theorem watch_matches_mirror_sample :
    ∃ s' r', addWatchTree.run
        (⟨freshRun watchedWorld [['b']], [], fun _ _ => none, false⟩ : Watching Trees) = .ok () s' ∧
      reconcile.run s'.run = .ok () r' ∧ s'.watched = [[], [nameA]] ∧
      ([nameA] ∈ s'.watched ↔ [nameA] = [] ∨ ([nameA] ∈ r'.seen ∧ watchedWorld.srcTree.IsDir [nameA])) := by
  let s : Watching Trees := ⟨freshRun watchedWorld [['b']], [], fun _ _ => none, false⟩
  have hwatch := ok_of_returns addWatchTree s (by decide +kernel)
  have hrec := ok_of_returns reconcile (after addWatchTree s).run (by decide +kernel)
  obtain ⟨-, hdirs, -⟩ := watch_matches_mirror (s := s) ⟨⟨rfl, rfl, rfl⟩, rfl⟩ rfl (by decide +kernel) rfl
    hwatch hrec
  exact ⟨_, _, hwatch, hrec, by decide +kernel, hdirs [nameA]⟩

end Dockerset.Netfin

import Dockerset.Netfin.Config
import Dockerset.Os.Rely

/-!
# SQLite replication (`internal/sqliterepl/repl.go`)

Which files the replicator takes for databases, and where the replica and the
metadata of each one go. What happens there is up to the replication library, and
so is the suffix of its metadata directories (`litestream.MetaDirSuffix`), some name.

A database is named by the components of its absolute path; as a file location
it lies below the root directory, which is the `src` side here.
-/

namespace Dockerset.Netfin
open Go Os Logic

def absComps (s : Str) : Path := (clean s).comps

@[simp] theorem absComps_absStr (p : Path) : absComps (absStr p) = p := by
  rw [absComps, clean_absStr]

theorem AbsOrUnset.eq {s : Str} (h : AbsOrUnset s) (hs : s ≠ []) : s = absStr (absComps s) := by
  rcases h with h | ⟨p, rfl⟩
  · exact absurd h hs
  · rw [absComps_absStr]

/-- The walk of `discoverDBPaths`: the world and the paths found so far. -/
structure Discovery (D : Type) where
  world : World D
  paths : List Path

instance (D : Type) : HasWorld D (Discovery D) := ⟨Discovery.world, fun s w => { s with world := w }⟩

def sqliteHeader : List UInt8 :=
  "SQLite format 3".toList.map (fun c => UInt8.ofNat c.toNat) ++ [0]

def metadataDir : Name := ⟨".metadata".toList, by decide⟩

section Model

variable {D : Type} [Disk D]

/-- A read at the start of a file into a zeroed buffer: an error if there is
nothing to read. -/
def readInto (h : Handle) (size : Nat) : Sys D (List UInt8) := fun w =>
  let fill (bytes : List UInt8) (w : World D) : EStateM.Result Err (World D) (List UInt8) :=
    if bytes = [] then .error (.text "EOF") w
    else .ok (bytes.take size ++ List.replicate (size - bytes.length) 0) w
  match h.file, w.plan with
  | none, _ => .error (.errno .EISDIR) w
  | some _, [] => fill (h.rest w.disk 0) w
  | some _, ev :: plan =>
    let w := { w with disk := ev.edit w.disk, plan := plan }
    match ev.fault with
    | some e => .error (.errno e) w
    | none => fill (h.readAt w.disk 0 ev) w

def isSQLiteDatabase (p : Path) : Sys D Bool := do
  match ← attempt (openFile ⟨.src, p⟩ >>= fun h => readInto h 16) with
  | .error _ => pure false
  | .ok header => pure (header == sqliteHeader)

/-- The end of the walk's callback, for an entry whose name matches. -/
def collect (p : Path) (kind : Kind) : EStateM Err (Discovery D) Ctl := do
  if kind ≠ .file then pure .next
  else
    match ← liftSys (isSQLiteDatabase p) with
    | false => pure .next
    | true => do
      modify fun s => { s with paths := s.paths ++ [p] }
      pure .next

/-- The callback of the walk in `discoverDBPaths`. The entry of the root holds the
information that the walk got; that of any other path asks for it. -/
def discoverFn (db : DBConfig) : WalkFn (Discovery D) := fun p entry =>
  match entry with
  | .error e => throw e
  | .ok kind =>
    if kind = .dir then
      pure (if db.recursive = false ∧ p ≠ absComps db.dir then .skipDir else .next)
    else
      match globMatch db.pattern (filepathBase (absStr p)) with
      | none => throw (.text "syntax error in pattern")
      | some false => pure .next
      | some true =>
        if p = absComps db.dir then collect p kind
        else do
          let info ← liftSys (lstat ⟨.src, p⟩)
          collect p info.kind

/-- What a walk has found, whether it ends with an error or not. -/
def collecting (x : EStateM Err (Discovery D) Unit) : Sys D (List Path × Option Err) := fun w =>
  match x.run ⟨w, []⟩ with
  | .error e s => .ok (s.paths, some e) s.world
  | .ok _ s => .ok (s.paths, none) s.world

/-- `discoverDBPaths(db)`: the paths, and the error if there was one. -/
def discoverDBPaths (db : DBConfig) : Sys D (List Path × Option Err) := do
  if db.dir = [] then
    match ← attempt (stat ⟨.src, absComps db.path⟩) with
    | .error e => pure ([], some e)
    | .ok _ => pure ([absComps db.path], none)
  else collecting (walk (discoverFn db) ⟨.src, absComps db.dir⟩)

/-- The paths that have a replication running, after a discovery. -/
def noteKnown (known paths : List Path) : List Path :=
  paths.foldl (fun known p => known.insert p) known

/-- `runDBConfig`, for some rounds: the paths whose replication it has started. -/
def runDBConfig (db : DBConfig) : Nat → List Path → Sys D (List Path)
  | 0, known => pure known
  | rounds + 1, known => do
    let (paths, _) ← discoverDBPaths db
    runDBConfig db rounds (noteKnown known paths)

/-- The path that `runOnce` gives to `SetMetaPath`. -/
def metaPathFor (suffix : Name) (cfg : DBConfig) (dbPath : Path) : Str :=
  if cfg.metaPath ≠ [] then cfg.metaPath
  else if cfg.metaDir ≠ [] then
    let rel := if cfg.dir ≠ [] then filepathRel (absComps cfg.dir) dbPath
      else filepathBase (absStr dbPath)
    filepathJoin [cfg.metaDir, rel ++ suffix.val]
  else
    filepathJoin [cfg.replica.path, metadataDir.val, filepathBase (absStr dbPath) ++ suffix.val]

def replicaPathFor (cfg : DBConfig) (dbPath : Path) : Str :=
  if cfg.dir ≠ [] then filepathJoin [cfg.replica.path, filepathRel (absComps cfg.dir) dbPath]
  else cfg.replica.path

/-- `runOnce`, up to where the library takes over: the replica directory and the
meta path it hands over. -/
def runOnce (suffix : Name) (cfg : DBConfig) (dbPath : Path) : Sys D (Str × Str) := do
  let info ← stat ⟨.src, dbPath⟩
  if info.kind ≠ .file then
    throw (.text ("sqlite db path is not a regular file: ".toList ++ absStr dbPath))
  else do
    let replicaPath := replicaPathFor cfg dbPath
    mkdirAll ⟨.src, absComps replicaPath⟩ 0o755
    pure (replicaPath, metaPathFor suffix cfg dbPath)

/-- `Replicator.Run`, for one entry: in dry-run mode it only waits. -/
def runReplicator (dryRun : Bool) (db : DBConfig) (rounds : Nat) : Sys D (List Path) :=
  if dryRun then pure [] else runDBConfig db rounds []

end Model

/-! ## What is found -/

/-- A path that `discoverDBPaths` may return for an entry. -/
structure Found (db : DBConfig) (p : Path) : Prop where
  named : db.dir = [] → p = absComps db.path
  below : db.dir ≠ [] → absComps db.dir <+: p
  matched : db.dir ≠ [] → globMatches db.pattern (filepathBase (absStr p)) = true

section Found

variable {D : Type} [Disk D] {db : DBConfig} {w : World D}

/-- Every path found so far is a database of the entry. -/
def FoundSoFar (db : DBConfig) (s : Discovery D) : Prop := ∀ p ∈ s.paths, Found db p

omit [Disk D] in
theorem preserves_liftSys_found {α : Type} (x : Sys D α) :
    Preserves (FoundSoFar db) (liftSys x : EStateM Err (Discovery D) α) := by
  intro s hs
  rw [wp_liftSys_iff]
  exact WP.trivial.mono (fun _ _ _ => hs) fun _ _ _ => hs

theorem preserves_collect {p : Path} (hp : Found db p) (kind : Kind) :
    Preserves (FoundSoFar db) (collect (D := D) p kind) := by
  refine preserves_ite (fun _ => preserves_pure _) fun _ => ?_
  refine preserves_bind (preserves_liftSys_found _) fun isDB => ?_
  cases isDB with
  | false => exact preserves_pure _
  | true =>
    refine preserves_bind (preserves_modify fun s hs q hq => ?_) fun _ => preserves_pure _
    rcases List.mem_append.1 hq with hq | hq
    · exact hs q hq
    · rw [List.mem_singleton.1 hq]
      exact hp

theorem preserves_discoverFn (hdir : db.dir ≠ []) {p : Path} (hp : absComps db.dir <+: p)
    (kind : Kind) : Preserves (FoundSoFar db) (discoverFn (D := D) db p (.ok kind)) := by
  refine preserves_ite (fun _ => preserves_pure _) fun _ => ?_
  cases hm : globMatch db.pattern (filepathBase (absStr p)) with
  | none => exact preserves_throw _
  | some m =>
    cases m with
    | false => exact preserves_pure _
    | true =>
      have hfound : Found db p :=
        ⟨fun h => absurd h hdir, fun _ => hp, fun _ => by rw [globMatches, hm]; rfl⟩
      refine preserves_ite (fun _ => preserves_collect hfound _) fun _ => ?_
      exact preserves_bind (preserves_liftSys_found _) fun _ => preserves_collect hfound _

theorem discoverFn_guided (hdir : db.dir ≠ []) :
    Guided (discoverFn (D := D) db) .src (FoundSoFar db) fun p _ => absComps db.dir <+: p where
  call _ k hp := preserves_discoverFn hdir hp k
  report _ e := preserves_throw e
  list p s hp hs := by
    refine (preserves_liftSys_found _ s hs).mono ?_ fun _ _ h => h
    intro l s' hs'
    exact ⟨hs', fun _ _ e _ => hp.trans (List.prefix_append p [e.1])⟩

omit [Disk D] in
theorem wp_collecting_iff {x : EStateM Err (Discovery D) Unit}
    {Q : List Path × Option Err → World D → Prop} {E : Err → World D → Prop} :
    WP (collecting x) Q E w ↔
      WP x (fun _ s => Q (s.paths, none) s.world) (fun e s => Q (s.paths, some e) s.world)
        ⟨w, []⟩ := by
  simp only [WP, collecting, EStateM.run]
  cases x ⟨w, []⟩ <;> rfl

/-- Whatever other processes do meanwhile, what is found belongs to the entry. -/
theorem wp_discoverDBPaths :
    WP (discoverDBPaths db) (fun r _ => ∀ p ∈ r.1, Found db p) (fun _ _ => False) w := by
  unfold discoverDBPaths
  split_ifs with hdir
  · have hpath : Found db (absComps db.path) :=
      ⟨fun _ => rfl, fun h => absurd hdir h, fun h => absurd hdir h⟩
    rw [WP.bind_iff, wp_attempt_iff]
    refine WP.trivial.mono (fun i w' _ => ?_) fun e w' _ => ?_
    · simpa using hpath
    · simp
  · rw [wp_collecting_iff]
    refine (discoverFn_guided hdir).walk (fun s hs => ?_) _ fun p hp => absurd hp List.not_mem_nil
    refine (preserves_liftSys_found _ s hs).mono (fun l s' hs' => ?_) fun _ _ h => h
    exact ⟨hs', fun _ _ => List.prefix_rfl⟩

theorem mem_noteKnown {known paths : List Path} {p : Path} :
    p ∈ noteKnown known paths ↔ p ∈ known ∨ p ∈ paths := by
  induction paths generalizing known with
  | nil => simp [noteKnown]
  | cons q paths ih =>
    have hstep : noteKnown known (q :: paths) = noteKnown (known.insert q) paths := rfl
    rw [hstep, ih, List.mem_insert_iff, List.mem_cons]
    constructor
    · rintro ((h | h) | h)
      exacts [.inr (.inl h), .inl h, .inr (.inr h)]
    · rintro (h | h | h)
      exacts [.inl (.inr h), .inl (.inl h), .inr h]

/-- Every path whose replication is started belongs to the entry. -/
theorem wp_runDBConfig (rounds : Nat) : ∀ known, (∀ p ∈ known, Found db p) → ∀ w : World D,
    WP (runDBConfig db rounds known) (fun r _ => ∀ p ∈ r, Found db p) (fun _ _ => False) w := by
  induction rounds with
  | zero =>
    intro known hknown w
    exact hknown
  | succ rounds ih =>
    intro known hknown w
    rw [runDBConfig, WP.bind_iff]
    refine wp_discoverDBPaths.mono ?_ fun _ _ h => h
    intro r w' hr
    refine ih _ (fun p hp => ?_) w'
    rcases mem_noteKnown.1 hp with hp | hp
    · exact hknown p hp
    · exact hr p hp

end Found

end Dockerset.Netfin

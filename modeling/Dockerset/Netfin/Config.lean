import Dockerset.Go.AbsPath
import Dockerset.Go.Strings
import Dockerset.Logic.EState
import Dockerset.Netfin.Exclude

/-!
# The configuration (`internal/config/config.go`)

What `Load` does with the parsed YAML: defaults, checks, absolute paths, and the
exclude patterns derived from the databases. Durations are in nanoseconds. A
function that returns an error is an `Except` with the error's text.

`getwd` stands for the working directory and `lower` for `unicode.ToLower`
outside ASCII. The fields that only set timers of the replication library are
left out.
-/

namespace Dockerset.Netfin
open Go Logic

structure NetfinConfig where
  configDir : Str
  fileBackupDir : Str
  debounce : Int
  reconcileInterval : Int
  sourceRetry : Int
  logLevel : Str
  excludePatterns : List Str
  dryRun : Bool
deriving DecidableEq

structure ReplicaConfig where
  type : Str
  path : Str
  url : Str
  syncInterval : Int
deriving DecidableEq

structure DBConfig where
  path : Str
  dir : Str
  pattern : Str
  recursive : Bool
  metaPath : Str
  metaDir : Str
  replica : ReplicaConfig
  replicas : List ReplicaConfig
deriving DecidableEq

structure Config where
  netfin : NetfinConfig
  dbs : List DBConfig
deriving DecidableEq

def second : Int := 1000000000

def defaultConfigDir : Str := "/config"
def defaultDBPath : Str := "/db/jellyfin.db"
def defaultFileBackupDir : Str := "/backup/files"
def defaultSQLiteBackupDir : Str := "/backup/sqlite"
def defaultDebounce : Int := 2 * second
def defaultReconcile : Int := 30 * 60 * second
def defaultSourceRetry : Int := 5 * second
def defaultLogLevel : Str := "warning"
def defaultSQLitePattern : Str := "*.db"
def defaultSQLiteReplicaType : Str := "file"

def baseExcludePatterns : List Str :=
  ["*.db", "*.db-wal", "*.db-shm", "*.db-journal", "*.sqlite", "*.sqlite-wal", "*.sqlite-shm",
    "SQLiteBackups/**", "cache/**", "transcodes/**", "log/**"]

/-- `Default()`. -/
def Config.default : Config where
  netfin :=
    { configDir := defaultConfigDir
      fileBackupDir := defaultFileBackupDir
      debounce := defaultDebounce
      reconcileInterval := defaultReconcile
      sourceRetry := defaultSourceRetry
      logLevel := defaultLogLevel
      excludePatterns := baseExcludePatterns
      dryRun := false }
  dbs :=
    [{ path := defaultDBPath
       dir := []
       pattern := []
       recursive := false
       metaPath := []
       metaDir := []
       replica := ⟨defaultSQLiteReplicaType, defaultSQLiteBackupDir, [], 0⟩
       replicas := [] }]

/-- The value, or the default where the field is not set. -/
def orDefault {α : Type} [DecidableEq α] (zero value default : α) : α :=
  if value = zero then default else value

/-- `strings.ToLower`. -/
def lowerCase (lower : Char → Char) (s : Str) : Str :=
  s.map fun c => if c.toNat < 0x80 then asciiLower c else lower c

def logLevels : List Str := ["debug", "info", "warn", "warning", "error"]

/-- The patterns of `dedupe` after those already taken. -/
def dedupeFrom (seen : List Str) : List Str → List Str
  | [] => []
  | v :: vs =>
    let v := trimSpace v
    if v = [] ∨ v ∈ seen then dedupeFrom seen vs else v :: dedupeFrom (v :: seen) vs

def dedupe (values : List Str) : List Str := dedupeFrom [] values

/-- `strings.Contains(s, sub)`. -/
def containsStr (sub : Str) (s : Str) : Bool := s.tails.any sub.isPrefixOf

/-- The patterns derived from one pattern or name. -/
def derivedPatterns (p : Str) : List Str :=
  let p := (clean p).str
  if p = ['.'] ∨ p = [] then []
  else
    p ::
      ((if containsStr ".db" p then [p ++ "-wal".toList, p ++ "-shm".toList, p ++ "-journal".toList]
        else []) ++
      if containsStr ".sqlite" p then [p ++ "-wal".toList, p ++ "-shm".toList] else [])

/-- `SQLiteExcludePatterns(db)`. -/
def sqliteExcludePatterns (db : DBConfig) : List Str :=
  ((if db.pattern = [] then [] else [db.pattern]) ++
    if db.path = [] then [] else [filepathBase db.path]).flatMap derivedPatterns

def Config.effectiveExcludePatterns (c : Config) : List Str :=
  dedupe (c.netfin.excludePatterns ++ c.dbs.flatMap sqliteExcludePatterns)

section

variable (getwd : Getwd) (lower : Char → Char)

/-- `if s != "" { s, err = filepath.Abs(s) }`. -/
def absIfSet (s : Str) : Except Str Str := if s = [] then .ok [] else filepathAbs getwd s

/-- `db.Replica.Path != "" || db.Replica.URL != "" || db.Replica.Type != ""`. -/
def ReplicaConfig.isSet (r : ReplicaConfig) : Bool := r.path ≠ [] || r.url ≠ [] || r.type ≠ []

/-- A replica that is set has to be a file replica. -/
def normalizeFileReplica (r : ReplicaConfig) : Except Str ReplicaConfig := do
  let type := orDefault [] r.type defaultSQLiteReplicaType
  if type ≠ defaultSQLiteReplicaType then
    .error "only file replica is supported by embedded netfin restore/replicate path"
  else do
    let path ← filepathAbs getwd (orDefault [] r.path defaultSQLiteBackupDir)
    return { r with type := type, path := path }

def defaultReplica : Except Str ReplicaConfig := do
  let path ← filepathAbs getwd defaultSQLiteBackupDir
  return ⟨defaultSQLiteReplicaType, path, [], 0⟩

/-- `normalizeReplica(db)`, on the two fields it reads. For a single element of
`replicas` the source calls itself with that as `replica` and no `replicas`. -/
def normalizeReplica (r : ReplicaConfig) (replicas : List ReplicaConfig) :
    Except Str ReplicaConfig :=
  if r.isSet then
    if replicas.length > 0 then .error "cannot specify both replica and replicas"
    else normalizeFileReplica getwd r
  else
    match replicas with
    | _ :: _ :: _ => .error "multiple replicas are not supported"
    | [r] => if r.isSet then normalizeFileReplica getwd r else defaultReplica getwd
    | [] => defaultReplica getwd

/-- `dbs[i]: ` -/
def dbPrefixed (i : Nat) (text : Str) : Str :=
  "dbs[".toList ++ (toString i).toList ++ "]: ".toList ++ text

/-- The path of an entry: the first one has a default. -/
def dbPathOrDefault (i : Nat) (db : DBConfig) : Except Str Str :=
  if db.path = [] ∧ db.dir = [] then
    if i = 0 then .ok defaultDBPath else .error (dbPrefixed i "path or dir required".toList)
  else .ok db.path

/-- The body of the loop over the databases. -/
def normalizeDB (i : Nat) (db : DBConfig) : Except Str DBConfig := do
  let path ← dbPathOrDefault i db
  let path ← absIfSet getwd path
  let dir ← absIfSet getwd db.dir
  let replica ← (normalizeReplica getwd db.replica db.replicas).mapError (dbPrefixed i)
  let metaPath ← absIfSet getwd db.metaPath
  let metaDir ← absIfSet getwd db.metaDir
  return { db with
    path := path, dir := dir, pattern := orDefault [] db.pattern defaultSQLitePattern,
    metaPath := metaPath, metaDir := metaDir, replica := replica, replicas := [] }

def normalizeDBs : Nat → List DBConfig → Except Str (List DBConfig)
  | _, [] => .ok []
  | i, db :: dbs => do
    let db ← normalizeDB getwd i db
    let dbs ← normalizeDBs (i + 1) dbs
    return db :: dbs

/-- The defaults of the `netfin` section. -/
def NetfinConfig.withDefaults (n : NetfinConfig) : NetfinConfig :=
  { n with
    configDir := orDefault [] n.configDir defaultConfigDir
    fileBackupDir := orDefault [] n.fileBackupDir defaultFileBackupDir
    debounce := orDefault 0 n.debounce defaultDebounce
    reconcileInterval := orDefault 0 n.reconcileInterval defaultReconcile
    sourceRetry := orDefault 0 n.sourceRetry defaultSourceRetry
    logLevel := orDefault [] n.logLevel defaultLogLevel }

def checkDurations (n : NetfinConfig) : Except Str Unit :=
  if n.debounce < 0 ∨ n.reconcileInterval < 0 ∨ n.sourceRetry < 0 then
    .error "durations must be positive"
  else .ok ()

def checkLogLevel (level : Str) : Except Str Str :=
  if lowerCase lower level ∈ logLevels then .ok (lowerCase lower level)
  else .error "netfin.loglevel must be one of debug, info, warn, warning, error"

/-- `(c *Config) applyDefaultsAndValidate()`: the configuration it leaves in `c`. -/
def applyDefaultsAndValidate (c : Config) : Except Str Config := do
  let n := c.netfin.withDefaults
  checkDurations n
  let logLevel ← checkLogLevel lower n.logLevel
  let dbs ← normalizeDBs getwd 0 (orDefault [] c.dbs Config.default.dbs)
  let configDir ← filepathAbs getwd n.configDir
  let fileBackupDir ← filepathAbs getwd n.fileBackupDir
  let n := { n with
    configDir, fileBackupDir, logLevel,
    excludePatterns := dedupe (baseExcludePatterns ++ n.excludePatterns) }
  return ⟨{ n with excludePatterns := Config.effectiveExcludePatterns ⟨n, dbs⟩ }, dbs⟩

end

/-! ## What the validation leaves -/

/-- A path field that is not set, or holds an absolute path. -/
def AbsOrUnset (s : Str) : Prop := s = [] ∨ ∃ p, s = absStr p

/-- A database entry as the validation leaves it. -/
structure DBConfig.Normal (db : DBConfig) : Prop where
  path : AbsOrUnset db.path
  dir : AbsOrUnset db.dir
  named : db.path ≠ [] ∨ db.dir ≠ []
  metaPath : AbsOrUnset db.metaPath
  metaDir : AbsOrUnset db.metaDir
  replica : ∃ p, db.replica.path = absStr p

/-- A configuration as the validation leaves it, given the user's patterns. -/
structure Config.Normal (userPatterns : List Str) (cfg : Config) : Prop where
  configDir : ∃ p, cfg.netfin.configDir = absStr p
  fileBackupDir : ∃ p, cfg.netfin.fileBackupDir = absStr p
  dbs : ∀ db ∈ cfg.dbs, db.Normal
  patterns : cfg.netfin.excludePatterns =
    dedupe (dedupe (baseExcludePatterns ++ userPatterns) ++ cfg.dbs.flatMap sqliteExcludePatterns)

section

variable {getwd : Getwd} {lower : Char → Char}

theorem absIfSet_ok {s t : Str} (h : absIfSet getwd s = .ok t) :
    AbsOrUnset t ∧ (s ≠ [] → t ≠ []) := by
  unfold absIfSet at h
  split at h
  · next hs =>
    cases h
    exact ⟨.inl rfl, fun hne => absurd hs hne⟩
  · obtain ⟨p, rfl⟩ := filepathAbs_eq h
    exact ⟨.inr ⟨p, rfl⟩, fun _ => absStr_ne_nil p⟩

theorem normalizeFileReplica_path {r r' : ReplicaConfig}
    (h : normalizeFileReplica getwd r = .ok r') : ∃ p, r'.path = absStr p := by
  unfold normalizeFileReplica at h
  dsimp only at h
  split at h
  · cases h
  · obtain ⟨path, hpath, h⟩ := except_bind_ok h
    cases h
    exact filepathAbs_eq hpath

theorem defaultReplica_path {r : ReplicaConfig} (h : defaultReplica getwd = .ok r) :
    ∃ p, r.path = absStr p := by
  obtain ⟨path, hpath, h⟩ := except_bind_ok h
  cases h
  exact filepathAbs_eq hpath

theorem normalizeReplica_path {r r' : ReplicaConfig} {replicas : List ReplicaConfig}
    (h : normalizeReplica getwd r replicas = .ok r') : ∃ p, r'.path = absStr p := by
  unfold normalizeReplica at h
  split_ifs at h
  · exact normalizeFileReplica_path h
  · split at h
    · cases h
    · split at h
      · exact normalizeFileReplica_path h
      · exact defaultReplica_path h
    · exact defaultReplica_path h

theorem dbPathOrDefault_ok {i : Nat} {db : DBConfig} {path : Str}
    (h : dbPathOrDefault i db = .ok path) : path ≠ [] ∨ db.dir ≠ [] := by
  unfold dbPathOrDefault at h
  split_ifs at h with hunset hi
  · cases h
    exact .inl (by decide)
  · cases h
    by_cases hp : db.path = []
    · exact .inr fun hd => hunset ⟨hp, hd⟩
    · exact .inl hp

theorem normalizeDB_normal {i : Nat} {db db' : DBConfig} (h : normalizeDB getwd i db = .ok db') :
    db'.Normal := by
  unfold normalizeDB at h
  obtain ⟨path, hpath, h⟩ := except_bind_ok h
  obtain ⟨path', hpath', h⟩ := except_bind_ok h
  obtain ⟨dir, hdir, h⟩ := except_bind_ok h
  obtain ⟨replica, hreplica, h⟩ := except_bind_ok h
  obtain ⟨metaPath, hmetaPath, h⟩ := except_bind_ok h
  obtain ⟨metaDir, hmetaDir, h⟩ := except_bind_ok h
  cases h
  refine ⟨(absIfSet_ok hpath').1, (absIfSet_ok hdir).1, ?_, (absIfSet_ok hmetaPath).1,
    (absIfSet_ok hmetaDir).1, ?_⟩
  · rcases dbPathOrDefault_ok hpath with hp | hd
    · exact .inl ((absIfSet_ok hpath').2 hp)
    · exact .inr ((absIfSet_ok hdir).2 hd)
  · cases hr : normalizeReplica getwd db.replica db.replicas with
    | error e => simp [hr, Except.mapError] at hreplica
    | ok r =>
      simp only [hr, Except.mapError, Except.ok.injEq] at hreplica
      subst hreplica
      exact normalizeReplica_path hr

theorem normalizeDBs_normal {i : Nat} {dbs dbs' : List DBConfig}
    (h : normalizeDBs getwd i dbs = .ok dbs') : ∀ db ∈ dbs', db.Normal := by
  induction dbs generalizing i dbs' with
  | nil =>
    cases h
    simp
  | cons db dbs ih =>
    unfold normalizeDBs at h
    obtain ⟨db', hdb, h⟩ := except_bind_ok h
    obtain ⟨rest, hrest, h⟩ := except_bind_ok h
    cases h
    intro e he
    rcases List.mem_cons.1 he with rfl | he
    · exact normalizeDB_normal hdb
    · exact ih hrest e he

theorem applyDefaultsAndValidate_normal {c cfg : Config}
    (h : applyDefaultsAndValidate getwd lower c = .ok cfg) :
    cfg.Normal c.netfin.excludePatterns := by
  unfold applyDefaultsAndValidate at h
  obtain ⟨-, -, h⟩ := except_bind_ok h
  obtain ⟨logLevel, -, h⟩ := except_bind_ok h
  obtain ⟨dbs, hdbs, h⟩ := except_bind_ok h
  obtain ⟨configDir, hconfig, h⟩ := except_bind_ok h
  obtain ⟨fileBackupDir, hbackup, h⟩ := except_bind_ok h
  cases h
  exact ⟨filepathAbs_eq hconfig, filepathAbs_eq hbackup, normalizeDBs_normal hdbs, rfl⟩

theorem orDefault_pos {d x : Int} (hd : 0 < d) (h : ¬ orDefault 0 x d < 0) : 0 < orDefault 0 x d := by
  unfold orDefault at h ⊢
  split_ifs at h ⊢ with hx
  · exact hd
  · omega

theorem applyDefaultsAndValidate_durations {c cfg : Config}
    (h : applyDefaultsAndValidate getwd lower c = .ok cfg) :
    0 < cfg.netfin.debounce ∧ 0 < cfg.netfin.reconcileInterval := by
  unfold applyDefaultsAndValidate at h
  obtain ⟨_, hcheck, h⟩ := except_bind_ok h
  obtain ⟨logLevel, -, h⟩ := except_bind_ok h
  obtain ⟨dbs, -, h⟩ := except_bind_ok h
  obtain ⟨configDir, -, h⟩ := except_bind_ok h
  obtain ⟨fileBackupDir, -, h⟩ := except_bind_ok h
  cases h
  unfold checkDurations at hcheck
  split_ifs at hcheck with hneg
  push Not at hneg
  exact ⟨orDefault_pos (by decide) (Int.not_lt.2 hneg.1), orDefault_pos (by decide) (Int.not_lt.2 hneg.2.1)⟩

end

/-- The validation accepts `c` and leaves a configuration that meets `P`. -/
def acceptedWith (getwd : Getwd) (lower : Char → Char) (c : Config) (P : Config → Bool) : Bool :=
  match applyDefaultsAndValidate getwd lower c with
  | .ok cfg => P cfg
  | .error _ => false

theorem of_acceptedWith (getwd : Getwd) (lower : Char → Char) (c : Config) (P : Config → Bool)
    (h : acceptedWith getwd lower c P = true) :
    ∃ cfg, applyDefaultsAndValidate getwd lower c = .ok cfg ∧ P cfg = true := by
  unfold acceptedWith at h
  split at h
  · next cfg hcfg => exact ⟨cfg, hcfg, h⟩
  · cases h

/-- A program started in the root directory. -/
def rootWd : Getwd := ⟨.ok ['/'], by intro wd h; cases h; rfl⟩

/-- An entry with an explicit path, and one with a directory that is searched
through; all else is left to the defaults. -/
def pathEntry (path : Str) : DBConfig := ⟨path, [], [], false, [], [], ⟨[], [], [], 0⟩, []⟩
def dirEntry (dir metaDir : Str) : DBConfig := ⟨[], dir, [], true, [], metaDir, ⟨[], [], [], 0⟩, []⟩

/-- Such an entry after the validation. -/
def DBConfig.filled (db : DBConfig) : DBConfig :=
  { db with
    pattern := defaultSQLitePattern
    replica := ⟨defaultSQLiteReplicaType, defaultSQLiteBackupDir, [], 0⟩ }

/-- The default configuration, but for the databases. -/
def Config.withDBs (dbs : List DBConfig) : Config := { Config.default with dbs := dbs }

end Dockerset.Netfin

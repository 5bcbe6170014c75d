import Dockerset.Netfin.Exclude
import Dockerset.Netfin.Safeio

/-!
# The file syncer (`internal/filesync/sync.go`)

`Syncer` mirrors a source directory into a destination. It remembers what it
last wrote in a state map, so that unchanged paths cost nothing; a deep
reconcile (the first one) also walks the destination and removes what it does
not know. The functions follow the source; paths in the state map and in the
pending set are cleaned relative paths, keyed in Go by their strings.

Logging is left out, except that `flushPending`, which logs the errors of the
calls it makes and goes on, returns them.
-/

namespace Dockerset.Netfin
open Go Os

inductive PathKind where
  | dir
  | file
deriving DecidableEq

/-- What is remembered of a path: size and modification time for files only. -/
structure PathState where
  kind : PathKind
  mode : Perm
  size : Nat
  modTime : Time
deriving DecidableEq

structure PendingEntry where
  rel : Path
  tree : Bool
deriving DecidableEq

abbrev StateMap := AList fun _ : Path => PathState

structure Syncer where
  excluder : Excluder
  dryRun : Bool
  pending : AList fun _ : Path => Bool
  state : StateMap
  reconciled : Bool

/-- `New(opts)`, for options it accepts. -/
def Syncer.new (patterns : List Str) (dryRun : Bool) : Syncer :=
  ⟨newExcluder patterns, dryRun, ∅, ∅, false⟩

/-- A syncer at work: the world, the syncer, and the `seen` set of the walk that
is going on. -/
structure Run (D : Type) where
  world : World D
  syncer : Syncer
  seen : List Path

abbrev SyncM (D : Type) := EStateM Err (Run D)

instance (D : Type) : HasWorld D (Run D) := ⟨Run.world, fun r w => { r with world := w }⟩

/-- `if err != nil { return err }` on a pure result. -/
def orFail {σ α : Type} : Except Err α → EStateM Err σ α
  | .ok a => pure a
  | .error e => throw e

/-- The error of `x` as a value. -/
def tryCall {σ α : Type} (x : EStateM Err σ α) : EStateM Err σ (Except Err α) := fun s =>
  match x.run s with
  | .ok a s => .ok (.ok a) s
  | .error e s => .ok (.error e) s

/-! ## The state map -/

def pathStateFromInfo (kind : PathKind) (info : Info) : PathState :=
  match kind with
  | .dir => ⟨.dir, info.perm, 0, 0⟩
  | .file => ⟨.file, info.perm, info.size, info.mtime⟩

/-- `path == rel || hasPathPrefix(path, rel + "/")`. -/
def inStateTree (rel path : Path) : Bool :=
  path == rel || hasPathPrefix path.str (rel.str ++ ['/'])

/-- `pathDepth`. -/
def pathDepth (path : Str) : Nat :=
  if path = ['.'] ∨ path = [] then 0 else 1 + path.count '/'

/-- `statePaths`' order: shallow paths first, then by string. -/
def statePathLe (p q : Path) : Prop :=
  if pathDepth p.str = pathDepth q.str then p.str ≤ q.str else pathDepth p.str < pathDepth q.str

instance : DecidableRel statePathLe := fun p q => by
  unfold statePathLe
  infer_instance

/-- The entries that are neither `p` nor below it by name. -/
def StateMap.prune (m : StateMap) (p : Path) : StateMap := m.filterKeys fun q => !inStateTree p q

def Syncer.remember (s : Syncer) (p : Path) (st : PathState) : Syncer :=
  if s.dryRun then s else { s with state := s.state.insert p st }

def Syncer.forget (s : Syncer) (p : Path) : Syncer :=
  if s.dryRun then s else { s with state := s.state.erase p }

def Syncer.forgetTree (s : Syncer) (p : Path) : Syncer :=
  if s.dryRun then s else { s with state := StateMap.prune s.state p }

def Syncer.statePaths (s : Syncer) : List Path := s.state.keys.insertionSort statePathLe

def Syncer.hasStateTree (s : Syncer) (p : Path) : Bool := s.state.keys.any (inStateTree p)

section

variable {D : Type} [Disk D]

def getSyncer : SyncM D Syncer := do return (← get).syncer

def modifySyncer (f : Syncer → Syncer) : SyncM D Unit :=
  modify fun r => { r with syncer := f r.syncer }

def stateMatches (p : Path) (st : PathState) : SyncM D Bool := do
  return (← getSyncer).state.lookup p == some st

def hasState (p : Path) : SyncM D Bool := do return ((← getSyncer).state.lookup p).isSome

def rememberState (p : Path) (st : PathState) : SyncM D Unit := modifySyncer fun s => s.remember p st

def forgetState (p : Path) : SyncM D Unit := modifySyncer fun s => s.forget p

def forgetStateTree (p : Path) : SyncM D Unit := modifySyncer fun s => s.forgetTree p

/-! ## One path -/

def ensureDir (p : Path) (mode : Perm) : SyncM D Unit := do
  let dstPath ← orFail (joinUnder .dst p.str)
  if (← getSyncer).dryRun then return
  liftSys (mkdirAll dstPath mode)

def syncDir (p : Path) (info : Info) : SyncM D Unit := do
  let state := pathStateFromInfo .dir info
  if ← stateMatches p state then return
  ensureDir p info.perm
  rememberState p state

def removeBackupPath (p : Path) (dstPath : Loc) : SyncM D Unit := do
  liftSys (removePath dstPath (← getSyncer).dryRun)
  forgetStateTree p

def removeKnownBackupPath (p : Path) (dstPath : Loc) : SyncM D Unit := do
  if !(← getSyncer).hasStateTree p then return
  removeBackupPath p dstPath

/-- The backup already has the file's permission bits, size and modification
time. What kind of file it is, is not asked. -/
def fileMetadataMatches (l : Loc) (src : Info) : Sys D Bool := do
  match ← attempt (stat l) with
  | .error _ => return false
  | .ok dst => return dst.perm == src.perm && dst.size == src.size && dst.mtime == src.mtime

def copyRel (p : Path) (info : Info) : SyncM D Unit := do
  let state := pathStateFromInfo .file info
  if ← stateMatches p state then return
  let srcPath ← orFail (joinUnder .src p.str)
  let dstPath ← orFail (joinUnder .dst p.str)
  if ← liftSys (fileMetadataMatches dstPath info) then
    rememberState p state
    return
  liftSys (atomicCopyFile srcPath dstPath info.perm info.mtime (← getSyncer).dryRun)
  rememberState p state

/-! ## Removing what is gone -/

/-- The callback of `removeDeletedByWalkingDestination`. -/
def deepRemoveFn (seen : List Path) : WalkFn (Run D) := fun p entry => do
  match entry with
  | .error e => throw e
  | .ok k =>
    if p = [] then return .next
    if p ∈ seen then return .next
    if k = .dir then
      liftSys (removeAll ⟨.dst, p⟩)
      forgetStateTree p
      return .skipDir
    liftSys (remove ⟨.dst, p⟩)
    forgetState p
    return .next

def removeDeletedByWalkingDestination (seen : List Path) : SyncM D Unit := do
  if (← getSyncer).dryRun then return
  walk (deepRemoveFn seen) ⟨.dst, []⟩

/-- One remembered path of `removeDeletedFromStateUnder`. -/
def removeDeletedPath (root : Path) (seen : List Path) (rel : Path) : SyncM D Unit := do
  if root ≠ [] ∧ rel ≠ root ∧ ¬ hasPathPrefix rel.str (root.str ++ ['/']) then return
  if rel ∈ seen then return
  if !(← hasState rel) then return
  let dstPath ← orFail (joinUnder .dst rel.str)
  liftSys (removePath dstPath (← getSyncer).dryRun)
  forgetStateTree rel

def removeDeletedFromStateUnder (root : Path) (seen : List Path) : SyncM D Unit := do
  forM (← getSyncer).statePaths (removeDeletedPath root seen)

def removeDeletedFromState (seen : List Path) : SyncM D Unit := removeDeletedFromStateUnder [] seen

/-! ## Reconcile -/

def addSeen (p : Path) : SyncM D Unit := modify fun r => { r with seen := r.seen ++ [p] }

/-- The callback of a source walk. `special` is what happens to an entry that
is neither directory, regular file nor link: `Reconcile` leaves its backup
alone, `SyncTree` removes it. -/
def mirrorFn (special : Path → SyncM D Unit) : WalkFn (Run D) := fun p entry => do
  match entry with
  | .error e => throw e
  | .ok k =>
    liftSys pollCtx
    if p = [] then return .next
    if (← getSyncer).excluder.excluded p then return (if k = .dir then .skipDir else .next)
    -- entry.Info()
    let info ← liftSys (lstat ⟨.src, p⟩)
    if info.kind = .symlink then return (if k = .dir then .skipDir else .next)
    addSeen p
    if k = .dir then
      syncDir p info
      return .next
    if info.kind ≠ .file then
      special p
      return .next
    copyRel p info
    return .next

/-- A source walk from `p` that collects `seen` afresh. -/
def mirrorWalk (special : Path → SyncM D Unit) (p : Path) : SyncM D (List Path) := do
  modify fun r => { r with seen := [] }
  walk (mirrorFn special) ⟨.src, p⟩
  return (← get).seen

/-- `Reconcile(ctx)`. -/
def reconcile : SyncM D Unit := do
  let deep := !(← getSyncer).reconciled
  let seen ← mirrorWalk (fun _ => pure ()) []
  if deep then removeDeletedByWalkingDestination seen
  else removeDeletedFromState seen
  modifySyncer fun s => { s with reconciled := true }

/-! ## One event -/

/-- `SyncRel(rel)`. -/
def syncRel (rel : Str) : SyncM D Unit := do
  if rel = ['.'] then return
  let rel := clean rel
  let srcPath ← orFail (joinUnder .src rel.str)
  let dstPath ← orFail (joinUnder .dst rel.str)
  let p := rel.comps
  if (← getSyncer).excluder.excluded p then return ← removeKnownBackupPath p dstPath
  if ← liftSys (hasSymlinkInPath srcPath) then return ← removeKnownBackupPath p dstPath
  match ← liftSys (attempt (lstat srcPath)) with
  | .error e => if e.isNotExist then removeKnownBackupPath p dstPath else throw e
  | .ok info =>
    if info.kind = .symlink then return ← removeKnownBackupPath p dstPath
    if info.kind = .dir then return ← syncDir p info
    if info.kind ≠ .file then return ← removeKnownBackupPath p dstPath
    copyRel p info

/-- An irregular file found by `SyncTree`'s walk. -/
def removeSpecial (p : Path) : SyncM D Unit := do
  let childDst ← orFail (joinUnder .dst p.str)
  removeBackupPath p childDst

/-- `SyncTree(ctx, rel)`. -/
def syncTree (rel : Str) : SyncM D Unit := do
  if rel = ['.'] then return
  let rel := clean rel
  let srcPath ← orFail (joinUnder .src rel.str)
  let dstPath ← orFail (joinUnder .dst rel.str)
  let p := rel.comps
  if (← getSyncer).excluder.excluded p then return ← removeKnownBackupPath p dstPath
  if ← liftSys (hasSymlinkInPath srcPath) then return ← removeKnownBackupPath p dstPath
  match ← liftSys (attempt (lstat srcPath)) with
  | .error e => if e.isNotExist then removeKnownBackupPath p dstPath else throw e
  | .ok info =>
    if info.kind ≠ .dir then return ← syncRel rel.str
    let seen ← mirrorWalk removeSpecial p
    removeDeletedFromStateUnder p seen

/-! ## Waiting for the source -/

/-- `waitForDir(ctx, path, retry, log)`, when the context is done after so many
looks at the latest. `Stat` follows links: a link to a directory is accepted. -/
def waitForDir (path : Str) : Nat → Sys D Unit
  | 0 => throw .canceled
  | looks + 1 => do
    match ← attempt (stat ⟨.src, []⟩) with
    | .ok info =>
      if info.kind = .dir then return
      throw (.text (("source path is not a directory: " : Str) ++ path))
    | .error e =>
      if !e.isNotExist then throw e
      -- sleepContext(ctx, retry)
      pollCtx
      waitForDir path looks

/-! ## Pending events -/

/-- The order of `collapsePending`: by path string, a tree entry first. -/
def pendingLe (a b : PendingEntry) : Prop :=
  if a.rel = b.rel then a.tree = true ∨ b.tree = false else a.rel.str ≤ b.rel.str

instance : DecidableRel pendingLe := fun a b => by
  unfold pendingLe
  infer_instance

/-- `existing` is a tree entry at or above `item`. -/
def absorbs (existing item : PendingEntry) : Bool :=
  existing.tree && inStateTree existing.rel item.rel

def collapseInto (collapsed : List PendingEntry) (item : PendingEntry) : List PendingEntry :=
  if collapsed.any fun existing => absorbs existing item then collapsed else collapsed ++ [item]

def collapsePending (entries : List PendingEntry) : List PendingEntry :=
  (entries.insertionSort pendingLe).foldl collapseInto []

/-- One entry of `flushPending`'s loop, with the error it logs. -/
def flushEntry (item : PendingEntry) : SyncM D (Except Err Unit) :=
  if item.tree then tryCall (syncTree item.rel.str) else tryCall (syncRel item.rel.str)

/-- The loop of `flushPending`; it stops when the context is done. -/
def flushEntries : List PendingEntry → SyncM D (List (Except Err Unit))
  | [] => return []
  | item :: rest => do
    match ← liftSys (attempt pollCtx) with
    | .error _ => return []
    | .ok _ =>
      let r ← flushEntry item
      let rs ← flushEntries rest
      return r :: rs

/-- `flushPending(ctx)`. The entries of the pending map come in any order. -/
def flushPending : SyncM D (List (Except Err Unit)) := do
  let pending := (← getSyncer).pending.entries.map fun e => (⟨e.1, e.2⟩ : PendingEntry)
  modifySyncer fun s => { s with pending := ∅ }
  flushEntries (collapsePending pending)

end

end Dockerset.Netfin

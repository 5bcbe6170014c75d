import Dockerset.Os.Walk

/-!
# Confined paths and atomic copies (`internal/safeio`)

A root is `Side`; `filepath.Join(root, rel)` is a `Loc`. `SafeRel(root, path)`
of a path that a walk or a join below the root produced is the path below the
root again, so it does not appear: the walk hands over relative paths.
-/

namespace Dockerset.Netfin
open Go Os

/-- `JoinUnder(root, rel)`. -/
def joinUnder (side : Side) (rel : Str) : Except Err Loc :=
  if rel = ['.'] ∨ rel = [] then .ok ⟨side, []⟩
  else
    let c := clean rel
    if c.confined then .ok ⟨side, c.comps⟩
    else .error (.text (("relative path escapes root: " : Str) ++ rel))

section

variable {D : Type} [Disk D]

/-- The loop of `HasSymlinkInPath` over the components below `cur`. -/
def symlinkBelow (side : Side) (cur : Path) : Path → Sys D Bool
  | [] => pure false
  | part :: rest => do
    match ← attempt (lstat ⟨side, cur ++ [part]⟩) with
    | .error e => if e.isNotExist then pure false else throw e
    | .ok info =>
      if info.kind = .symlink then pure true
      else symlinkBelow side (cur ++ [part]) rest

/-- `HasSymlinkInPath(root, path)`. The root itself is not looked at. -/
def hasSymlinkInPath (l : Loc) : Sys D Bool := symlinkBelow l.side [] l.path

/-- `fsyncDir(filepath.Dir(path))`: a directory that is gone needs no sync. -/
def fsyncDir (l : Loc) : Sys D Unit := do
  match ← attempt (openParent l) with
  | .error (.errno .ENOENT) => pure ()
  | .error (.errno e) => throw (.wrapped ("open parent dir for fsync" : Str) e)
  | .error e => throw e
  | .ok _ =>
    -- dir.Sync()
    match ← attempt (syscall fun w => .ok ((), w)) with
    | .error (.errno e) => throw (.wrapped ("fsync parent dir" : Str) e)
    | .error e => throw e
    | .ok _ => pure ()

/-- `AtomicCopyFile(src, dst, mode, modTime, dryRun)`. The permission bits and
the modification time are the caller's, read before the content. -/
def atomicCopyFile (src dst : Loc) (mode : Perm) (modTime : Time) (dryRun : Bool) : Sys D Unit := do
  if dryRun then return
  let h ← openFile src
  mkdirParent dst 0o755
  createTemp dst
  deferring (do
    ioCopy h
    onTemp fun f => { f with perm := mode }
    onTemp fun f => { f with mtime := modTime }
    -- tmp.Sync() and tmp.Close()
    onTemp id
    onTemp id
    rename dst
    fsyncDir dst) (removeTemp dst)

/-- `RemovePath(path, dryRun)`. -/
def removePath (l : Loc) (dryRun : Bool) : Sys D Unit := do
  if dryRun then return
  removeAll l
  fsyncDir l

end

/-- Joining a cleaned path: it fails exactly when the path leaves the root. -/
theorem joinUnder_clean (side : Side) (s : Str) :
    joinUnder side (clean s).str =
      if (clean s).confined then .ok ⟨side, (clean s).comps⟩
      else .error (.text (("relative path escapes root: " : Str) ++ (clean s).str)) := by
  unfold joinUnder
  rw [clean_str]
  split
  · next h =>
    have hc : (clean s) = ⟨false, 0, []⟩ := by
      rw [← clean_str s]
      rcases h with h | h <;> rw [h] <;> decide
    simp [hc, Cleaned.confined]
  · rfl

theorem joinUnder_path (side : Side) (p : Path) : joinUnder side p.str = .ok ⟨side, p⟩ := by
  have h := joinUnder_clean side p.str
  rw [clean_path] at h
  have hs : (Cleaned.mk false 0 p).str = p.str := Cleaned.str_of_confined rfl
  rw [hs] at h
  exact h

end Dockerset.Netfin

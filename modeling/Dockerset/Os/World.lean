import Dockerset.Os.TreeOps
import Dockerset.Logic.EState

/-!
# Programs that make system calls

A program runs against a `World`: a disk, the temporary file the running copy
owns, the clock, and the plan of what the rest of the machine does. Before each
system call the next event of the plan takes its turn: it may edit the disk
(another process writes), and it may make the call fail. A world with an empty
plan is quiet: calls act on the disk alone and fail only for what they find
there. Every interleaving of a program with other processes, and every I/O
fault, is some plan. A call that fails has itself changed nothing: an `os.MkdirAll`
that fails half way is an event that makes the first directories and has the call
fail, so it takes a world that is not quiet.

The disk is a parameter (`Disk`): the same programs run on two separate trees
and on one file system that holds both roots. A program names files by `Loc`,
the root it works under and the cleaned path below it.

`os.CreateTemp` opens its file exclusively under a random name. The temporary
file of the running copy is kept beside the disk, in `World.tmp`: its name is
taken to differ from every name in use.
-/

namespace Dockerset.Os
open Go Logic

/-- The two roots of a program: the one it reads and the one it writes. -/
inductive Side where
  | src
  | dst
deriving DecidableEq

/-- The path `filepath.Join(root, rel)`. -/
structure Loc where
  side : Side
  path : Path
deriving DecidableEq

/-- The file system operations. A call that fails leaves the disk as it was. -/
class Disk (D : Type) where
  lstat : D → Loc → Except Errno Info
  /-- follows symbolic links -/
  stat : D → Loc → Except Errno Info
  /-- names in order, with their kinds -/
  readDir : D → Loc → Except Errno (List (Name × Kind))
  /-- `os.Open` for reading; a directory opens but cannot be read (`none`) -/
  openFile : D → Loc → Except Errno (Option File)
  mkdirAll : D → Loc → Perm → Time → Except Errno D
  /-- `os.MkdirAll(filepath.Dir(path))` -/
  mkdirParent : D → Loc → Perm → Time → Except Errno D
  /-- an entry of `filepath.Dir(path)` other than the path itself is made or removed -/
  touchParent : D → Loc → Time → Except Errno D
  /-- `os.Rename` of the temporary file over the path -/
  install : D → Loc → File → Time → Except Errno D
  remove : D → Loc → Time → Except Errno D
  removeAll : D → Loc → Time → Except Errno D
  /-- `os.Open(filepath.Dir(path))` -/
  openParent : D → Loc → Except Errno Unit

/-- What happens before one system call. `chunk` and `torn` matter to a read:
how many bytes more than one it may return, and what it returns once the file
it reads from has been modified or replaced since it was opened. -/
structure Event (D : Type) where
  edit : D → D
  fault : Option Errno
  chunk : Nat
  torn : List UInt8

structure World (D : Type) where
  disk : D
  tmp : Option File
  umask : Perm
  /-- how deep below the root of a walk a directory can still be read -/
  pathMax : Nat
  clock : Nat → Time
  tick : Nat
  plan : List (Event D)

/-- The errors of the modelled functions. -/
inductive Err where
  | errno (e : Errno)
  | wrapped (text : Str) (cause : Errno)
  | text (s : Str)
  | canceled
deriving DecidableEq

abbrev Sys (D : Type) := EStateM Err (World D)

/-- `os.IsNotExist`. -/
def Err.isNotExist (e : Err) : Bool := e == .errno .ENOENT

section Calls

variable {D α : Type}

/-- The next event of the plan takes its turn. -/
def World.turn (w : World D) : Option Errno × World D :=
  match w.plan with
  | [] => (none, w)
  | ev :: plan => (ev.fault, { w with disk := ev.edit w.disk, plan := plan })

/-- One system call: the environment's turn, then the call. -/
def syscall (f : World D → Except Errno (α × World D)) : Sys D α := fun w =>
  match w.turn with
  | (some e, w) => .error (.errno e) w
  | (none, w) =>
    match f w with
    | .ok (a, w') => .ok a w'
    | .error e => .error (.errno e) w

/-- A call that only looks. -/
def query (f : D → Except Errno α) : Sys D α := syscall fun w => (f w.disk).map fun a => (a, w)

/-- A call that changes the disk, at the current time. -/
def change (f : D → Time → Except Errno D) : Sys D Unit := syscall fun w =>
  (f w.disk (w.clock w.tick)).map fun d => ((), { w with disk := d, tick := w.tick + 1 })

/-- The error of `x` as a value (`if err != nil`). -/
def attempt (x : Sys D α) : Sys D (Except Err α) := fun w =>
  match x.run w with
  | .ok a w => .ok (.ok a) w
  | .error e w => .ok (.error e) w

/-- `x`, then the deferred `c`, whose error is dropped. -/
def deferring (x : Sys D α) (c : Sys D Unit) : Sys D α := fun w =>
  match x.run w with
  | .ok a w => .ok a (after c w)
  | .error e w => .error e (after c w)

/-- `select { case <-ctx.Done(): return ctx.Err() ... }`: a fault planned here
is the cancellation of the context. -/
def pollCtx : Sys D Unit := fun w =>
  match w.turn with
  | (some _, w) => .error .canceled w
  | (none, w) => .ok () w

variable [Disk D]

def lstat (l : Loc) : Sys D Info := query fun d => Disk.lstat d l

def stat (l : Loc) : Sys D Info := query fun d => Disk.stat d l

def readDir (l : Loc) : Sys D (List (Name × Kind)) := query fun d => Disk.readDir d l

def openParent (l : Loc) : Sys D Unit := query fun d => Disk.openParent d l

def mkdirAll (l : Loc) (perm : Perm) : Sys D Unit := syscall fun w =>
  (Disk.mkdirAll w.disk l (perm &&& ~~~w.umask) (w.clock w.tick)).map fun d =>
    ((), { w with disk := d, tick := w.tick + 1 })

def mkdirParent (l : Loc) (perm : Perm) : Sys D Unit := syscall fun w =>
  (Disk.mkdirParent w.disk l (perm &&& ~~~w.umask) (w.clock w.tick)).map fun d =>
    ((), { w with disk := d, tick := w.tick + 1 })

def remove (l : Loc) : Sys D Unit := change fun d now => Disk.remove d l now

def removeAll (l : Loc) : Sys D Unit := change fun d now => Disk.removeAll d l now

/-! ## The temporary file of a copy -/

/-- An open source file: where it was opened and what it was then. -/
structure Handle where
  loc : Loc
  file : Option File
deriving DecidableEq

def openFile (l : Loc) : Sys D Handle := query fun d => (Disk.openFile d l).map fun f => ⟨l, f⟩

/-- `os.CreateTemp(filepath.Dir(path), ".tmp-*")`. -/
def createTemp (l : Loc) : Sys D Unit := syscall fun w =>
  (Disk.touchParent w.disk l (w.clock w.tick)).map fun d =>
    ((), { w with disk := d, tick := w.tick + 1, tmp := some ⟨0o600, w.clock w.tick, []⟩ })

/-- `chmod`, `chtimes`, `fsync` and `close` of the temporary file. -/
def onTemp (f : File → File) : Sys D Unit := syscall fun w => .ok ((), { w with tmp := w.tmp.map f })

def rename (l : Loc) : Sys D Unit := syscall fun w =>
  match w.tmp with
  | none => .error .ENOENT
  | some f => (Disk.install w.disk l f (w.clock w.tick)).map fun d =>
      ((), { w with disk := d, tick := w.tick + 1, tmp := none })

/-- `os.Remove` of the temporary file: there is none after a successful rename. -/
def removeTemp (l : Loc) : Sys D Unit := syscall fun w =>
  match w.tmp with
  | none => .error .ENOENT
  | some _ => (Disk.touchParent w.disk l (w.clock w.tick)).map fun d =>
      ((), { w with disk := d, tick := w.tick + 1, tmp := none })

/-- The open file still is the version that was opened. -/
def Handle.fresh (h : Handle) (d : D) : Option File :=
  match h.file, Disk.openFile d h.loc with
  | some f, .ok (some g) => if g.mtime = f.mtime then some g else none
  | _, _ => none

/-- What a read at offset `off` returns: the next bytes of the version that was
opened, or, once that version is gone, whatever the event says. -/
def Handle.readAt (h : Handle) (d : D) (off : Nat) (ev : Event D) : List UInt8 :=
  match h.fresh d with
  | some g => (g.content.drop off).take (ev.chunk + 1)
  | none => ev.torn

/-- `io.Copy` from `h`, chunk by chunk: before each read another event of the
plan takes its turn; when the plan is exhausted the rest is read at once. -/
def copyChunks (h : Handle) (w : World D) (buf : List UInt8) :
    List (Event D) → EStateM.Result Err (World D) (List UInt8)
  | [] =>
    let rest := match Disk.openFile w.disk h.loc with
      | .ok (some g) => g.content.drop buf.length
      | _ => []
    .ok (buf ++ rest) { w with plan := [] }
  | ev :: plan =>
    let w := { w with disk := ev.edit w.disk, plan := plan }
    match ev.fault with
    | some e => .error (.errno e) w
    | none =>
      let got := h.readAt w.disk buf.length ev
      if got = [] then .ok buf w else copyChunks h w (buf ++ got) plan

/-- `io.Copy(tmp, in)`. -/
def ioCopy (h : Handle) : Sys D Unit := fun w =>
  match h.file with
  | none => .error (.errno .EISDIR) w
  | some _ =>
    match copyChunks h w [] w.plan with
    | .ok bytes w => .ok () { w with tmp := w.tmp.map fun f => { f with content := bytes } }
    | .error e w => .error e w

end Calls

end Dockerset.Os

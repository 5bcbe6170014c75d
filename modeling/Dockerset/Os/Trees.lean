import Dockerset.Os.World

/-!
# A disk of two separate trees

The source and the destination as two trees that share nothing. A root path may
itself be a symbolic link to the directory whose tree is given: then `Lstat` of
the root sees the link, while every longer path goes through it.

Nothing lies behind a symbolic link below a root: a call that would follow one
finds it dangling. So these trees stand for a real destination if there is no link
in it (`Tree.LinkFree`). Links of the source may lead anywhere, as long as nothing
is asked of a path through one.
-/

namespace Dockerset.Os
open Go Logic

/-- The tree below a root path, and the link the root path is, if it is one. -/
structure Root where
  link : Option Attr
  tree : Tree

structure Trees where
  src : Root
  dst : Root

namespace Tree

/-- No entry, not even the root. -/
def empty : Tree := ⟨∅, by intro p x n h; simp at h⟩

/-- No entry is a symbolic link. -/
def LinkFree (t : Tree) : Prop := ∀ p, t.kind p ≠ some .symlink

instance (t : Tree) : Decidable t.LinkFree :=
  decidable_of_iff (∀ p n, t.get p = some n → n.kind ≠ .symlink) <| by
    constructor
    · intro h p hk
      obtain ⟨n, hn, hk⟩ := Option.map_eq_some_iff.1 hk
      exact h p n hn hk
    · intro h p n hn hk
      exact h p ((kind_of_get hn).trans (congrArg some hk))

theorem LinkFree.of_shape {t t' : Tree} (h : t.LinkFree)
    (hs : ∀ p, t'.shape p = t.shape p ∨ t'.kind p ≠ some .symlink) : t'.LinkFree := by
  intro p
  rcases hs p with hp | hp
  · rw [kind_eq_shape, hp, ← kind_eq_shape]
    exact h p
  · exact hp

/-- A tree given by its entries, directories before what is in them. -/
def ofList (l : List (Path × Node)) : Tree := l.foldl (fun t e => t.put e.1 e.2) .empty

/-- A regular file, or anything else that is no directory, in place of the root. -/
def leaf (n : Node) : Tree := empty.put [] n

theorem get_leaf (n : Node) (q : Path) : (leaf n).get q = if q = [] then some n else none := by
  have hadm : empty.Admits [] n := ⟨.inl rfl, .inr fun q hq => absurd hq List.not_mem_nil⟩
  rw [leaf, get_put hadm]
  rfl

def stat (t : Tree) (p : Path) : Except Errno Info :=
  match t.get p with
  | some (.symlink _) => .error .ENOENT
  | _ => t.lstat p

theorem stat_eq_ok {t : Tree} {p : Path} {i : Info} :
    t.stat p = .ok i ↔ ∃ n, t.get p = some n ∧ n.kind ≠ .symlink ∧ n.info = i := by
  unfold stat
  cases hg : t.get p with
  | none => simp [lstat_of_none hg]
  | some n => cases n <;> simp [lstat_of_get hg]

def readDir (t : Tree) (p : Path) : Except Errno (List (Name × Kind)) :=
  match t.get p with
  | some (.dir _) => .ok ((t.names p).map fun x => (x, (t.kind (p ++ [x])).getD .special))
  | some _ => .error .ENOTDIR
  | none => .error (t.missing p)

def openFile (t : Tree) (p : Path) : Except Errno (Option File) :=
  match t.get p with
  | some (.file f) => .ok (some f)
  | some (.dir _) => .ok none
  | some (.symlink _) => .error .ENOENT
  | some (.special _) => .error .ENODEV
  | none => .error (t.missing p)

def mkdirParent (t : Tree) (p : Path) (perm : Perm) (now : Time) : Except Errno Tree :=
  if p = [] then .ok t else t.mkdirAll p.dropLast perm now

def touchParent (t : Tree) (p : Path) (now : Time) : Except Errno Tree :=
  if p = [] then .ok t
  else if t.IsDir p.dropLast then .ok (t.stamp p.dropLast now)
  else if t.Has p.dropLast then .error .ENOTDIR
  else .error (t.missing p)

def openParent (t : Tree) (p : Path) : Except Errno Unit :=
  if p = [] ∨ t.Has p.dropLast then .ok () else .error (t.missing p)

end Tree

namespace Root

def lstat (r : Root) (p : Path) : Except Errno Info :=
  match p, r.link with
  | [], some a => .ok (a.info .symlink)
  | _, _ => r.tree.lstat p

/-- Change what the root path leads to. -/
def onTree (r : Root) (f : Tree → Except Errno Tree) : Except Errno Root :=
  (f r.tree).map fun t => { r with tree := t }

/-- At a root that is a link, the link itself is replaced or removed. -/
def install (r : Root) (p : Path) (f : File) (now : Time) : Except Errno Root :=
  match p, r.link with
  | [], some _ => .ok ⟨none, .leaf (.file f)⟩
  | _, _ => r.onTree fun t => t.install p f now

def remove (r : Root) (p : Path) (now : Time) : Except Errno Root :=
  match p, r.link with
  | [], some _ => .ok ⟨none, .empty⟩
  | _, _ => r.onTree fun t => t.remove p now

def removeAll (r : Root) (p : Path) (now : Time) : Except Errno Root :=
  match p, r.link with
  | [], some _ => .ok ⟨none, .empty⟩
  | _, _ => r.onTree fun t => t.removeAll p now

end Root

namespace Trees

def root (d : Trees) : Side → Root
  | .src => d.src
  | .dst => d.dst

def onRoot (d : Trees) (s : Side) (f : Root → Except Errno Root) : Except Errno Trees :=
  match s with
  | .src => (f d.src).map fun r => { d with src := r }
  | .dst => (f d.dst).map fun r => { d with dst := r }

instance : Disk Trees where
  lstat d l := (d.root l.side).lstat l.path
  stat d l := (d.root l.side).tree.stat l.path
  readDir d l := (d.root l.side).tree.readDir l.path
  openFile d l := (d.root l.side).tree.openFile l.path
  mkdirAll d l perm now := d.onRoot l.side fun r => r.onTree fun t => t.mkdirAll l.path perm now
  mkdirParent d l perm now := d.onRoot l.side fun r => r.onTree fun t => t.mkdirParent l.path perm now
  touchParent d l now := d.onRoot l.side fun r => r.onTree fun t => t.touchParent l.path now
  install d l f now := d.onRoot l.side fun r => r.install l.path f now
  remove d l now := d.onRoot l.side fun r => r.remove l.path now
  removeAll d l now := d.onRoot l.side fun r => r.removeAll l.path now
  openParent d l := (d.root l.side).tree.openParent l.path

end Trees

/-- Two trees with nothing going on around them, seen with the usual umask. -/
def World.still (src dst : Tree) (clock : Nat → Time) : World Trees where
  disk := ⟨⟨none, src⟩, ⟨none, dst⟩⟩
  tmp := none
  umask := 0o022
  pathMax := 8
  clock := clock
  tick := 0
  plan := []

end Dockerset.Os

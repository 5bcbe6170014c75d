import Dockerset.Netfin.KindChange
import Dockerset.Netfin.Restore

/-!
# A restore undoes a backup

The first `Reconcile` into an empty directory leaves a backup that has exactly
the paths of the source. A restore visits every path of the backup and copies
what it finds there, so that the target has the source's files and directories,
and what is nowhere in the source stays as it was.

Both sides make directories with `MkdirAll`, which creates what is missing and
asks for the permission bits of the directory that is visited. A walk visits a
directory before what is in it, so each directory is made by its own visit, and
the bits that arrive are those the two umasks let through.
-/

namespace Dockerset.Netfin
open Go Os Logic

/-- `B` is a backup of `S` made under the umask `U`: it has the same paths, the
same files, and directories with the permission bits that the umask lets through. -/
structure BackupOf (S : Tree) (U : Perm) (B : Tree) : Prop where
  root : B.IsDir []
  paths : ∀ p, B.Has p ↔ S.Has p
  files : ∀ p f, S.get p = some (.file f) → B.get p = some (.file f)
  dirs : ∀ p a, p ≠ [] → S.get p = some (.dir a) →
    ∃ b, B.get p = some (.dir b) ∧ b.perm = a.perm &&& ~~~U

section

variable {w : World Trees} {patterns : List Str} {r' : Run Trees} {p : Path} {a : Attr}

theorem first_dir_perm (hw : Plain w) (hempty : EmptyDir w.dstTree)
    (hok : reconcile.run (freshRun w patterns) = .ok () r')
    (hm : Mirrored w.srcTree (newExcluder patterns).excluded p) (ha : w.srcTree.get p = some (.dir a)) :
    ∃ b, r'.dst.get p = some (.dir b) ∧ b.perm = a.perm &&& ~~~w.umask := by
  obtain ⟨t₁, m₁, n, hrun, -⟩ := deepRun_of_reconcile hw hok
  have hseen := (hrun.all p).2 hm
  have hshape := hrun.pass.first_dir hseen ha (hempty.get hm.ne_root)
  rw [← hrun.shape_eq hseen] at hshape
  exact Tree.get_dir_of_shape hshape

/-- **The first `Reconcile` of an ordinary tree** leaves a backup of it. -/
theorem backupOf_first (hw : Plain w) (hS : Ordinary w.srcTree)
    (hex : ∀ p, w.srcTree.Has p → (newExcluder patterns).excluded p = false)
    (hempty : EmptyDir w.dstTree) (hok : reconcile.run (freshRun w patterns) = .ok () r') :
    BackupOf w.srcTree w.umask r'.dst := by
  have hsy := synced_of_first hw hempty hok
  have hmir : ∀ {p}, p ≠ [] → w.srcTree.Has p → Mirrored w.srcTree (newExcluder patterns).excluded p :=
    fun hp hhas => hS.mirrored hex hp hhas
  have hfiles : ∀ p f, w.srcTree.get p = some (.file f) → r'.dst.get p = some (.file f) := by
    intro p f hf
    have hp : p ≠ [] := Tree.ne_root_of_file hw.root hf
    exact (hsy.file p f (hmir hp (Tree.has_of_get hf)) hf).1
  refine ⟨hsy.root, fun p => ?_, hfiles, fun p a hp ha =>
    first_dir_perm hw hempty hok (hmir hp (Tree.has_of_get ha)) ha⟩
  by_cases hp : p = []
  · subst hp
    exact iff_of_true hsy.root.has hw.root.has
  constructor
  · intro hhas
    by_contra hno
    exact Tree.not_has_iff.2 (hsy.other p hp fun hm => hno hm.1.has).1 hhas
  · intro hhas
    obtain ⟨n, hn⟩ := Tree.has_iff.1 hhas
    rcases hS.2 p _ (Tree.kind_of_get hn) with hk | hk
    · obtain ⟨a, rfl⟩ := Node.kind_eq_dir.1 hk
      exact (hsy.dir p a (hmir hp hhas) hn).1.has
    · obtain ⟨f, rfl⟩ := Node.kind_eq_file.1 hk
      exact Tree.has_of_get (hfiles p f hn)

end

/-- What a restore of the backup of `S` makes of the target `t`: the files and
directories of `S` are there, and what is nowhere in `S` is as it was, but for the
size and the modification time that a directory reports. -/
structure Undone (S t t' : Tree) : Prop where
  files : Restored S t'
  dirs : ∀ p, S.IsDir p → t'.IsDir p
  rest : ∀ p, t.Has p → ¬ S.Has p → t'.shape p = t.shape p

/-- The directories of `t` have the permission bits of those in `S`, below the
root, which both sides are given. -/
def SamePerms (S t : Tree) : Prop :=
  ∀ p a, p ≠ [] → S.get p = some (.dir a) → ∃ b, t.get p = some (.dir b) ∧ b.perm = a.perm

section

variable {S B t₀ t : Tree} {T : Set Time} {U V : Perm} {l : List Path}

theorem RestorePass.root (h : RestorePass B T U t₀ l t) (h₀ : t₀.IsDir []) : t.IsDir [] := by
  induction h with
  | nil => exact h₀
  | @snoc l q t t' _ _ _ hv ih =>
    by_cases hq : [] = q
    · subst hq
      cases hv with
      | skip => exact ih
      | dir _ h => exact h.isDir List.prefix_rfl
      | file _ h => exact absurd ih h.notDir
    · rw [Tree.isDir_iff_shape, hv.keeps hq ih.has, ← Tree.isDir_iff_shape]
      exact ih

theorem RestorePass.undone (h : RestorePass B T U t₀ l t) (hB : BackupOf S V B)
    (hall : ∀ p, B.Has p → p ∈ l) (h₀ : t₀.IsDir []) : Undone S t₀ t where
  files p f hf := by
    have hb := hB.files p f hf
    exact h.copied (hall p (Tree.has_of_get hb)) (Tree.ne_root_of_file hB.root hb) hb
  dirs p hd := by
    by_cases hp : p = []
    · exact hp ▸ h.root h₀
    obtain ⟨a, ha⟩ := Tree.isDir_iff.1 hd
    obtain ⟨b, hb, -⟩ := hB.dirs p a hp ha
    exact (h.made (hall p (Tree.has_of_get hb)) hp hb).1
  rest p ht hS := h.frame (mt (hB.paths p).1 hS) ht

theorem RestorePass.paths (h : RestorePass B T U t₀ l t) (hB : BackupOf S V B) (hS : Ordinary S)
    (hall : ∀ p, B.Has p → p ∈ l) (h₀ : EmptyDir t₀) (p : Path) : t.Has p ↔ S.Has p := by
  have hun := h.undone hB hall h₀.1
  constructor
  · intro hhas
    rcases h.new hhas with hold | ⟨q, hq, hpq⟩
    · have hp : p = [] := not_not.1 fun hp => h₀.2 p hp hold
      exact hp ▸ hS.1.has
    · exact Tree.has_of_isPrefix ((hB.paths q).1 (h.has hq)) hpq
  · intro hhas
    obtain ⟨n, hn⟩ := Tree.has_iff.1 hhas
    have hk := Tree.kind_of_get hn
    rcases hS.2 p _ hk with hd | hf
    · exact (hun.dirs p (hk.trans (congrArg some hd))).has
    · obtain ⟨f, rfl⟩ := Node.kind_eq_file.1 hf
      exact Tree.has_of_get (hun.files p f hn)

/-- And so are the permission bits of the directories, if the umasks let them through. -/
theorem RestorePass.samePerms (h : RestorePass B T 0 t₀ l t) (hB : BackupOf S 0 B)
    (hall : ∀ p, B.Has p → p ∈ l) (h₀ : EmptyDir t₀) : SamePerms S t := by
  intro p a hp ha
  obtain ⟨b, hb, hperm⟩ := hB.dirs p a hp ha
  have hshape := (h.made (hall p (Tree.has_of_get hb)) hp hb).2 (h₀.get hp)
  obtain ⟨c, hc, hcperm⟩ := Tree.get_dir_of_shape hshape
  refine ⟨c, hc, ?_⟩
  have hmask : ~~~(0 : Perm) = BitVec.allOnes 9 := rfl
  rw [hcperm, hperm, hmask, BitVec.and_allOnes, BitVec.and_allOnes]

end

/-- **A restore undoes a backup.** -/
theorem restore_undoes_backup {w v v' : World Trees} {patterns : List Str} {r' : Run Trees}
    (hw : Plain w) (hS : Ordinary w.srcTree)
    (hex : ∀ p, w.srcTree.Has p → (newExcluder patterns).excluded p = false)
    (hempty : EmptyDir w.dstTree) (hback : reconcile.run (freshRun w patterns) = .ok () r')
    (hplan : v.plan = []) (htmp : v.tmp = none) (hlink : v.disk.src.link = none)
    (hsrc : v.srcTree = r'.dst) (htarget : Ordinary v.dstTree)
    (hok : (restoreFiles false).run v = .ok () v') :
    Undone w.srcTree v.dstTree v'.dstTree ∧
      (EmptyDir v.dstTree → (∀ p, v'.dstTree.Has p ↔ w.srcTree.Has p) ∧
        (w.umask = 0 → v.umask = 0 → SamePerms w.srcTree v'.dstTree)) := by
  have hB := backupOf_first hw hS hex hempty hback
  rw [← hsrc] at hB
  obtain ⟨t, n, l, rfl, hpass, hall⟩ := (wp_restoreFiles hplan htmp hlink hB.root).ok hok
  refine ⟨hpass.undone hB hall htarget.1, fun h₀ => ⟨hpass.paths hB hS hall h₀, fun hw0 hv0 => ?_⟩⟩
  rw [hw0] at hB
  rw [hv0] at hpass
  exact hpass.samePerms hB hall h₀

/-- The file `a` below the directory `b`, which only its owner may enter, and an
empty directory for its backup. -/
def homeWorld : World Trees :=
  { World.still
      (.ofList [([], .dir ⟨0o755, 4096, 1⟩), ([nameB], .dir ⟨0o700, 4096, 1⟩),
        ([nameB, nameA], .file ⟨0o640, 7, [1, 2]⟩)])
      (.ofList [([], .dir ⟨0o755, 4096, 1⟩)])
      (fun n => 100 + n) with umask := 0 }

/-- A backup and the directory it is restored to. -/
def restoreWorld (backup target : Tree) : World Trees :=
  { World.still backup target (fun n => 200 + n) with umask := 0 }

/-- A target that holds nothing, and one that holds a file `x`. -/
def emptyTarget : Tree := .ofList [([], .dir ⟨0o755, 4096, 1⟩)]
def usedTarget : Tree := .ofList [([], .dir ⟨0o755, 4096, 1⟩), ([nameX], .file ⟨0o644, 3, [5]⟩)]

theorem restore_undoes_home : ∃ (r' : Run Trees) (u v : World Trees),
    reconcile.run (freshRun homeWorld []) = .ok () r' ∧
    (restoreFiles false).run (restoreWorld r'.dst usedTarget) = .ok () u ∧
    (restoreFiles false).run (restoreWorld r'.dst emptyTarget) = .ok () v ∧
    Undone homeWorld.srcTree usedTarget u.dstTree ∧
    (∀ p, v.dstTree.Has p ↔ homeWorld.srcTree.Has p) ∧ SamePerms homeWorld.srcTree v.dstTree := by
  have hw : Plain homeWorld := ⟨rfl, rfl, rfl, rfl, by decide +kernel⟩
  have hS : Ordinary homeWorld.srcTree := by decide +kernel
  have hempty : EmptyDir homeWorld.dstTree := by decide +kernel
  have hex : ∀ p, homeWorld.srcTree.Has p → (newExcluder []).excluded p = false := by
    have hall : ∀ p n, homeWorld.srcTree.get p = some n → (newExcluder []).excluded p = false := by
      decide +kernel
    intro p hp
    obtain ⟨n, hn⟩ := Tree.has_iff.1 hp
    exact hall p n hn
  have hruns : ∃ (r' : Run Trees) (u v : World Trees),
      reconcile.run (freshRun homeWorld []) = .ok () r' ∧
      (restoreFiles false).run (restoreWorld r'.dst usedTarget) = .ok () u ∧
      (restoreFiles false).run (restoreWorld r'.dst emptyTarget) = .ok () v := by
    have hback := ok_of_returns reconcile (freshRun homeWorld []) (by decide +kernel)
    have hused := ok_of_returns (restoreFiles false)
      (restoreWorld (after reconcile (freshRun homeWorld [])).dst usedTarget) (by decide +kernel)
    have hnew := ok_of_returns (restoreFiles false)
      (restoreWorld (after reconcile (freshRun homeWorld [])).dst emptyTarget) (by decide +kernel)
    exact ⟨_, _, _, hback, hused, hnew⟩
  obtain ⟨r', u, v, hback, hused, hnew⟩ := hruns
  have husedTarget : Ordinary (restoreWorld r'.dst usedTarget).dstTree := by
    change Ordinary usedTarget
    decide +kernel
  have hemptyTarget : EmptyDir (restoreWorld r'.dst emptyTarget).dstTree := by
    change EmptyDir emptyTarget
    decide +kernel
  have hnewTarget : Ordinary (restoreWorld r'.dst emptyTarget).dstTree := by
    change Ordinary emptyTarget
    decide +kernel
  obtain ⟨hundone, -⟩ :=
    restore_undoes_backup hw hS hex hempty hback rfl rfl rfl rfl husedTarget hused
  obtain ⟨-, hreplica⟩ :=
    restore_undoes_backup hw hS hex hempty hback rfl rfl rfl rfl hnewTarget hnew
  obtain ⟨hpaths, hperms⟩ := hreplica hemptyTarget
  exact ⟨r', u, v, hback, hused, hnew, hundone, hpaths, hperms rfl rfl⟩

end Dockerset.Netfin

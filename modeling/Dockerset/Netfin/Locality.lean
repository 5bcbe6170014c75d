import Dockerset.Netfin.Steps
import Dockerset.Os.Confined

/-!
# `SyncRel` and `SyncTree` stay in their subtree

Both work on the cleaned path and the paths below it. Which remembered paths lie
below it is decided on strings, with a separator appended, so a sibling whose name
begins with the path's is not among them.

In the destination the paths are joined and used as they are: a symbolic link on
the way leads elsewhere. Without such links a call changes nothing outside its
subtree, except that it makes the directories above that are missing.
-/

namespace Dockerset.Netfin
open Go Os Logic

/-- The trees differ, among the paths in `Z`, at and below `B` only, and in
directories above `B` that were missing. No link is new on the way to `B` or below
it. -/
structure Local (Z : Set Path) (B : Path) (t t' : Tree) : Prop where
  frame : ∀ q ∈ Z, ¬ Along B q → t'.get q = t.get q
  above : ∀ q ∈ Z, q <+: B → q ≠ B → t'.shape q = t.shape q ∨ t.get q = none ∧ t'.IsDir q
  link : ∀ q, Along B q → t'.kind q = some .symlink → t.kind q = some .symlink

namespace Local

variable {Z : Set Path} {B p : Path} {t t' t'' : Tree} {now : Time} {perm : Perm}

theorem refl (Z : Set Path) (B : Path) (t : Tree) : Local Z B t t :=
  ⟨fun _ _ _ => rfl, fun _ _ _ _ => .inl rfl, fun _ _ h => h⟩

theorem trans (h : Local Z B t t') (h' : Local Z B t' t'') : Local Z B t t'' := by
  refine ⟨fun q hZ hq => (h'.frame q hZ hq).trans (h.frame q hZ hq), fun q hZ hq hne => ?_,
    fun q hq hk => h.link q hq (h'.link q hq hk)⟩
  rcases h.above q hZ hq hne with hs | ⟨hnone, hdir⟩
  · rcases h'.above q hZ hq hne with hs' | ⟨hnone', hdir'⟩
    · exact .inl (hs'.trans hs)
    · refine .inr ⟨?_, hdir'⟩
      rw [← Tree.shape_eq_none, ← hs, Tree.shape_eq_none]
      exact hnone'
  · refine .inr ⟨hnone, ?_⟩
    rcases h'.above q hZ hq hne with hs' | ⟨hnone', -⟩
    · rw [Tree.isDir_iff_shape, hs', ← Tree.isDir_iff_shape]
      exact hdir
    · exact absurd hdir.has (Tree.not_has_iff.2 hnone')

theorem of_within (h : Within (Along B) t t')
    (habove : ∀ q, q <+: B → q ≠ B → t'.shape q = t.shape q ∨ t.get q = none ∧ t'.IsDir q) :
    Local Z B t t' :=
  ⟨fun q _ hq => h.frame q hq, fun q _ hq hne => habove q hq hne, fun q _ hk => h.link q hk⟩

theorem stamp (hp : Along B p) (t : Tree) (now : Time) : Local Z B t (t.stamp p now) :=
  .of_within (.stamp hp t now) fun q _ _ => .inl (by rw [Tree.shape_stamp])

theorem mkdir (hp : Along B p) (t : Tree) (perm : Perm) (now : Time) :
    Local Z B t (t.mkdir p perm now) := by
  refine .of_within (.mkdir hp hp.dropLast t perm now) fun q _ _ => ?_
  unfold Tree.mkdir
  split
  · exact .inl rfl
  · next hno =>
    rw [Tree.isDir_stamp, Tree.shape_stamp]
    by_cases hadm : t.Admits p (.dir ⟨perm, newDirSize, now⟩)
    · by_cases hqp : q = p
      · refine .inr ⟨Tree.not_has_iff.1 (hqp ▸ hno), ?_⟩
        rw [Tree.IsDir, Tree.kind, Tree.get_put hadm, if_pos hqp]
        rfl
      · exact .inl (by rw [Tree.shape_put hadm, if_neg hqp])
    · exact .inl (by rw [Tree.put, dif_neg hadm])

theorem install {f : File} (hp : B <+: p) (h : t.install p f now = .ok t') : Local Z B t t' := by
  refine .of_within (.install (.inl hp) (Along.dropLast (.inl hp)) h) fun q hq hne => .inl ?_
  have hqp : q ≠ p := fun he => hne (prefix_antisymm hq (he ▸ hp))
  rw [(Tree.install_spec (Set.mem_univ _) h).shape, if_neg hqp]

theorem removed (hp : B <+: p) (t : Tree) (now : Time) :
    Local Z B t ((t.prune p).stamp p.dropLast now) := by
  refine .of_within (.removed (fun _ h => .inl (hp.trans h)) (Along.dropLast (.inl hp)) t now)
    fun q hq hne => .inl ?_
  have hpq : ¬ p <+: q := fun he => hne (prefix_antisymm hq (hp.trans he))
  rw [Tree.shape_stamp, Tree.shape_prune, if_neg hpq]

theorem linkless (h : Local Z B t t') (hB : Linkless B t) : Linkless B t' :=
  fun q hq hk => hB q hq (h.link q hq hk)

end Local

/-- `Local`, of the trees of two file systems. -/
def LocalFs (Z : Set Path) (B : Path) (fs fs' : Fs) : Prop := Local Z B fs.tree fs'.tree

theorem changes_local (Z : Set Path) (B : Path) : Changes (Along B) (B <+: ·) (LocalFs Z B) where
  refl fs := .refl Z B fs.tree
  trans := Local.trans
  stamp fs now hp := .stamp hp fs.tree now
  mkdir fs perm now hp := .mkdir hp fs.tree perm now
  install _ hp h := .install hp h

theorem removals_local (Z : Set Path) (B : Path) : Removals (B <+: ·) (LocalFs Z B) where
  refl fs := .refl Z B fs.tree
  removed fs now hp := .removed hp fs.tree now

theorem LocalFs.find_along {Z : Set Path} {B r q : Path} {fs₀ fs : Fs} {follow : Bool}
    (hlinks : Linkless B fs₀.tree) (h : LocalFs Z B fs₀ fs) (hr : Along B r)
    (hq : fs.find follow r = .ok q) : q = r :=
  Fs.find_along (h.linkless hlinks) hr hq

/-- The state map has not changed outside the subtree of `p`. -/
def StateLocal (p : Path) (s₀ s : Syncer) : Prop :=
  ∀ q, ¬ p <+: q → s.state.lookup q = s₀.state.lookup q

section State

variable {p q : Path} {s₀ s : Syncer}

theorem StateLocal.remember (h : StateLocal p s₀ s) (hq : p <+: q) (st : PathState) :
    StateLocal p s₀ (s.remember q st) := by
  unfold Syncer.remember
  split
  · exact h
  · intro x hx
    have hne : x ≠ q := fun he => hx (he ▸ hq)
    show (s.state.insert q st).lookup x = _
    rw [AList.lookup_insert_ne hne, h x hx]

theorem StateLocal.forget (h : StateLocal p s₀ s) (hq : p <+: q) : StateLocal p s₀ (s.forget q) := by
  unfold Syncer.forget
  split
  · exact h
  · intro x hx
    have hne : x ≠ q := fun he => hx (he ▸ hq)
    show (s.state.erase q).lookup x = _
    rw [AList.lookup_erase_ne hne, h x hx]

theorem StateLocal.forgetTree (h : StateLocal p s₀ s) (hq : p <+: q) :
    StateLocal p s₀ (s.forgetTree q) := by
  unfold Syncer.forgetTree
  split
  · exact h
  · intro x hx
    have hne : q ≠ [] := by
      rintro rfl
      rw [List.prefix_nil.1 hq] at hx
      exact hx List.nil_prefix
    show (StateMap.prune s.state q).lookup x = _
    rw [lookup_prune hne, if_neg fun hqx => hx (hq.trans hqx), h x hx]

end State

section

variable (Z : Set Path) {root p : Path} {fs₀ : Fs} (s₀ : Syncer)
  (hlinks : Linkless (root ++ p) fs₀.tree)
include hlinks

theorem mirrorKeeps_local : MirrorKeeps (p <+: ·)
    (Confined root (LocalFs Z (root ++ p)) fs₀) (StateLocal p s₀) where
  below q x hq := hq.trans (List.prefix_append q [x])
  writes _ _ hq _ _ := writesKeep_confined
    (fun h hr hf => (h.find_along hlinks (.inl hr) hf).symm ▸ hr) (changes_local Z _)
    (fun h hr hf => (h.find_along hlinks hr hf).symm ▸ hr) ((List.prefix_append_right_inj root).2 hq)
  remember _ _ st hq hs := hs.remember hq st

theorem dropKeeps_local : DropKeeps (p <+: ·)
    (Confined root (LocalFs Z (root ++ p)) fs₀) (StateLocal p s₀) where
  removals _ _ hq _ _ := removalsKeep_confined
    (fun h hr hf => (h.find_along hlinks (.inl hr) hf).symm ▸ hr) Local.trans
    (removals_local Z _) ((List.prefix_append_right_inj root).2 hq)
  forget _ _ hq hs := hs.forget hq
  forgetTree _ _ hq hs := hs.forgetTree hq

end

/-- **Subtree syncs are local.** Where no link is on the way to the cleaned path, at
it or below it, `SyncRel` and `SyncTree`, however they end, change no path and no
state entry outside the subtree, but for directories above it that were missing. `Z`
are the paths that the others leave alone in the same sense. -/
theorem subtree_sync_local {Z : Set Path} {r : Run Mount} {s : Str} {call : SyncM Mount Unit}
    (hcall : call = syncRel s ∨ call = syncTree s)
    (hlinks : Linkless (r.world.disk.dst ++ (clean s).comps) r.world.disk.fs.tree)
    (hothers : ∀ ev ∈ r.world.plan, ∀ m : Mount, (ev.edit m).dst = m.dst ∧
      Local Z (r.world.disk.dst ++ (clean s).comps) m.fs.tree (ev.edit m).fs.tree) :
    Local Z (r.world.disk.dst ++ (clean s).comps) r.world.disk.fs.tree
      (after call r).world.disk.fs.tree ∧
    ∀ q, ¬ (clean s).comps <+: q →
      (after call r).syncer.state.lookup q = r.syncer.state.lookup q := by
  let B := r.world.disk.dst ++ (clean s).comps
  have hm := mirrorKeeps_local Z r.syncer hlinks
  have hd := dropKeeps_local Z r.syncer hlinks
  have hdrops := hd.drops (fun _ h => h) fun _ _ hp hpq => hp.trans hpq
  have hstart : HeldWith (Confined r.world.disk.dst (LocalFs Z B) r.world.disk.fs)
      (StateLocal (clean s).comps r.syncer) r := by
    refine ⟨⟨⟨rfl, .refl Z B _⟩, fun ev hev m h => ?_⟩, fun _ _ => rfl⟩
    obtain ⟨hdst, hlocal⟩ := hothers ev hev m
    exact ⟨hdst.trans h.dst, Local.trans h.rel hlocal⟩
  have hkeep : Preserves (HeldWith (Confined r.world.disk.dst (LocalFs Z B) r.world.disk.fs)
      (StateLocal (clean s).comps r.syncer)) call := by
    rcases hcall with rfl | rfl
    · exact (hm.mirrors fun _ h => h).syncRel hdrops fun _ => List.prefix_rfl
    · exact (hm.mirrors fun _ h => h).syncTree hdrops (hd.removeSpecial fun _ h => h) fun _ => List.prefix_rfl
  have hend := hkeep.after hstart
  exact ⟨hend.1.1.rel, hend.2⟩

/-- A file `a/f` in the source; in the destination, `a` and two siblings whose names
begin with it. -/
def siblings : Run Mount where
  world := .resting
    { tree := .ofList [([], .dir ⟨0o755, 4096, 1⟩), ((clean "/src").comps, .dir ⟨0o755, 4096, 1⟩),
        ((clean "/src/a").comps, .dir ⟨0o755, 4096, 1⟩),
        ((clean "/src/a/f").comps, .file ⟨0o644, 5, [1, 2]⟩),
        ((clean "/dst").comps, .dir ⟨0o755, 4096, 1⟩),
        ((clean "/dst/ab").comps, .file ⟨0o644, 3, [9]⟩),
        ((clean "/dst/a-b").comps, .dir ⟨0o755, 4096, 1⟩),
        ((clean "/dst/a-b/g").comps, .file ⟨0o644, 3, [8]⟩)]
      text := fun _ => [] }
    (clean "/src").comps (clean "/dst").comps fun n => 100 + n
  syncer := .new [] false
  seen := []

/-- `SyncTree("a")` copies `a/f` and leaves the siblings alone. -/
theorem subtree_sync_local_siblings : returns (syncTree ['a']) siblings = true ∧
    (after (syncTree ['a']) siblings).world.disk.fs.tree.get (clean "/dst/a/f").comps =
      some (.file ⟨0o644, 5, [1, 2]⟩) ∧
    (after (syncTree ['a']) siblings).world.disk.fs.tree.get (clean "/dst/ab").comps =
      some (.file ⟨0o644, 3, [9]⟩) ∧
    (after (syncTree ['a']) siblings).world.disk.fs.tree.get (clean "/dst/a-b/g").comps =
      some (.file ⟨0o644, 3, [8]⟩) := by
  have hlinks : Linkless (siblings.world.disk.dst ++ (clean ['a']).comps)
      siblings.world.disk.fs.tree := linkless_of_keys (by decide +kernel)
  obtain ⟨hlocal, -⟩ := subtree_sync_local (Z := Set.univ) (r := siblings) (s := ['a']) (.inr rfl)
    hlinks fun _ hev => by cases hev
  refine ⟨by decide +kernel, by decide +kernel, ?_, ?_⟩
  · rw [hlocal.frame _ trivial (by decide +kernel)]
    decide +kernel
  · rw [hlocal.frame _ trivial (by decide +kernel)]
    decide +kernel

/-- A file `a/f` in the source; in the destination, `a` is a link to the directory `b`. -/
def linkedSibling : Run Mount where
  world := .resting
    { tree := .ofList [([], .dir ⟨0o755, 4096, 1⟩), ((clean "/src").comps, .dir ⟨0o755, 4096, 1⟩),
        ((clean "/src/a").comps, .dir ⟨0o755, 4096, 1⟩),
        ((clean "/src/a/f").comps, .file ⟨0o644, 5, [1, 2]⟩),
        ((clean "/dst").comps, .dir ⟨0o755, 4096, 1⟩),
        ((clean "/dst/a").comps, .symlink ⟨0o777, 1, 1⟩),
        ((clean "/dst/b").comps, .dir ⟨0o755, 4096, 1⟩),
        ((clean "/dst/b/f").comps, .file ⟨0o600, 3, [9]⟩)]
      text := fun _ => ['b'] }
    (clean "/src").comps (clean "/dst").comps fun n => 100 + n
  syncer := .new [] false
  seen := []

/-- `SyncRel("a/f")` writes to `b/f`. -/
theorem sync_follows_link : returns (syncRel "a/f") linkedSibling = true ∧
    ¬ Along (clean "/dst/a/f").comps (clean "/dst/b/f").comps ∧
    linkedSibling.world.disk.fs.tree.get (clean "/dst/b/f").comps = some (.file ⟨0o600, 3, [9]⟩) ∧
    (after (syncRel "a/f") linkedSibling).world.disk.fs.tree.get (clean "/dst/b/f").comps =
      some (.file ⟨0o644, 5, [1, 2]⟩) :=
  ⟨by decide +kernel, by decide +kernel, by decide +kernel, by decide +kernel⟩

end Dockerset.Netfin

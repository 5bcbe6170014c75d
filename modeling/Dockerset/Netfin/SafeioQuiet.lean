import Dockerset.Netfin.Safeio
import Dockerset.Os.Quiet

/-!
# `internal/safeio` in a quiet world

What the functions of `safeio` do to a destination tree that nobody else
touches, for every way in which they can end.
-/

namespace Dockerset.Netfin
open Go Os Logic

/-- What was there is still there, as it was; directories may have been added
and stamped. -/
structure Grown (t t' : Tree) : Prop where
  keep : ∀ q, t.Has q → t'.shape q = t.shape q
  added : ∀ q, ¬ t.Has q → t'.Has q → t'.IsDir q

theorem Grown.of_shape {t t' : Tree} (h : t'.shape = t.shape) : Grown t t' where
  keep q _ := by rw [h]
  added q hno hhas := by
    rw [Tree.has_iff_shape, h, ← Tree.has_iff_shape] at hhas
    exact absurd hhas hno

theorem Grown.refl (t : Tree) : Grown t t := .of_shape rfl

theorem Grown.trans {t u v : Tree} (h : Grown t u) (h' : Grown u v) : Grown t v where
  keep q hq := by
    have hu : u.Has q := by rw [Tree.has_iff_shape, h.keep q hq, ← Tree.has_iff_shape]; exact hq
    rw [h'.keep q hu, h.keep q hq]
  added q hno hhas := by
    by_cases hu : u.Has q
    · have hdir := h.added q hno hu
      rwa [Tree.isDir_iff_shape, ← h'.keep q hu, ← Tree.isDir_iff_shape] at hdir
    · exact h'.added q hu hhas

theorem MadeDirs.grown {T : Set Time} {perm : Perm} {p : Path} {t t' : Tree}
    (h : Tree.MadeDirs T perm p t t') : Grown t t' where
  keep q hq := by rw [h.shape, if_neg fun hc => Tree.shape_ne_none.2 hq hc.2]
  added q hno hhas := by
    by_cases hq : q <+: p
    · exact h.isDir hq
    · rw [Tree.has_iff_shape, h.shape, if_neg fun hc => hq hc.1, ← Tree.has_iff_shape] at hhas
      exact absurd hhas hno

theorem Grown.linkFree {t t' : Tree} (hg : Grown t t') (h : t.LinkFree) : t'.LinkFree := by
  refine h.of_shape fun q => ?_
  by_cases hq : t.Has q
  · exact .inl (hg.keep q hq)
  · refine .inr fun hk => ?_
    have hdir := hg.added q hq (Tree.has_of_kind hk)
    rw [Tree.IsDir, hk] at hdir
    cases hdir

/-- A finished copy of `f` to `p`, with the directories above it. -/
structure Copied (T : Set Time) (perm : Perm) (p : Path) (f : File) (t t' : Tree) : Prop where
  notDir : ¬ t.IsDir p
  above : ∀ q, q <+: p.dropLast → t.Has q → t.IsDir q
  shape : ∀ q, t'.shape q =
    if q = p then some (.file f)
    else if q <+: p ∧ t.shape q = none then some (.dir ⟨perm, 0, 0⟩) else t.shape q
  frame : ∀ q, ¬ q <+: p → t'.get q = t.get q
  stamped : Tree.Stamped T t t'

theorem Copied.linkFree {T : Set Time} {perm : Perm} {p : Path} {f : File} {t t' : Tree}
    (hc : Copied T perm p f t t') (h : t.LinkFree) : t'.LinkFree := by
  refine h.of_shape fun q => ?_
  rw [Tree.kind_eq_shape, hc.shape]
  split
  · exact .inr (by simp)
  · split
    · exact .inr (by simp)
    · exact .inl rfl

section

variable {w : World Trees} {p : Path} {E : Err → World Trees → Prop} {t : Tree}
  {Q : Unit → World Trees → Prop}

theorem wp_fsyncDir (hq : w.plan = [])
    (h : p = [] ∨ w.dstTree.Has p.dropLast ∨ w.dstTree.missing p = .ENOENT) (hQ : Q () w) :
    WP (fsyncDir ⟨.dst, p⟩) Q E w := by
  have hcall : Disk.openParent w.disk ⟨.dst, p⟩ = w.dstTree.openParent p := rfl
  rw [fsyncDir, WP.bind_iff, wp_attempt_iff]
  refine wp_query hq (fun a _ => ?_) fun e he => ?_
  · simp only [WP.bind_iff, wp_attempt_iff]
    exact wp_syscall hq (x := .ok ()) (g := fun _ => ((), w)) rfl (fun _ _ => hQ)
      fun _ he => by cases he
  · rw [hcall, Tree.openParent] at he
    split at he
    · cases he
    · next hno =>
      simp only [not_or] at hno
      cases he
      rcases h with h | h | h
      · exact absurd h hno.1
      · exact absurd h hno.2
      · rw [h]
        exact hQ

/-- **`RemovePath`** below the destination root: it fails only at an ancestor
that is no directory, and then changes nothing. -/
theorem wp_removePath (hq : w.plan = []) (hp : p ≠ [])
    (hok : ∀ t, Tree.Pruned (Set.range w.clock) p w.dstTree t → Q () (w.setDst t 1))
    (herr : ∀ e, w.dstTree.missing p ≠ .ENOENT → ¬ w.dstTree.Has p → E e w) :
    WP (removePath ⟨.dst, p⟩ false) Q E w := by
  simp only [removePath, Bool.false_eq_true, if_false, WP.bind_iff]
  refine wp_removeAll_dst hq hp (fun t ht => ?_) fun e he => ?_
  · have hpr := Tree.removeAll_spec (Set.mem_range_self w.tick) ht
    exact wp_fsyncDir hq (.inr (Tree.removeAll_parent hp ht)) (hok t hpr)
  · unfold Tree.removeAll at he
    split at he
    · cases he
    · next hh =>
      split at he
      · cases he
      · next hm => exact herr _ hm hh

/-! ## `AtomicCopyFile` -/

theorem touchParent_dst (hp : p ≠ []) (hd : w.dstTree.IsDir p.dropLast) (now : Time) :
    Disk.touchParent w.disk ⟨.dst, p⟩ now = .ok (w.setDst (w.dstTree.stamp p.dropLast now) 1).disk := by
  change w.disk.onRoot .dst _ = _
  simp only [Trees.onRoot, Root.onTree, Tree.touchParent, if_neg hp]
  rw [if_pos hd]
  rfl

theorem wp_createTemp (hq : w.plan = []) (hp : p ≠ []) (hd : w.dstTree.IsDir p.dropLast)
    (hQ : Q () (w.copying (w.dstTree.stamp p.dropLast (w.clock w.tick)) 1
      ⟨0o600, w.clock w.tick, []⟩)) :
    WP (createTemp ⟨.dst, p⟩) Q E w := by
  have hcall := touchParent_dst hp hd (w.clock w.tick)
  refine wp_syscall hq rfl (fun d hd => ?_) fun e he => ?_
  · rw [hcall] at hd
    cases hd
    exact hQ
  · rw [hcall] at he
    cases he

theorem ioCopy_run (hq : w.plan = []) {n : Nat} {f g : File}
    (hsrc : w.srcTree.get p = some (.file f)) :
    (ioCopy ⟨⟨.src, p⟩, some f⟩).run (w.copying t n g) =
      .ok () (w.copying t n { g with content := f.content }) := by
  have hopen : Disk.openFile (w.copying t n g).disk ⟨.src, p⟩ = .ok (some f) := by
    change w.srcTree.openFile p = _
    rw [Tree.openFile, hsrc]
  have hplan : (w.copying t n g).plan = [] := hq
  simp only [ioCopy, EStateM.run, hplan, copyChunks, hopen]
  simp [World.copying, World.setDst, hq]

theorem onTemp_run (hq : w.plan = []) {n : Nat} {g : File} (φ : File → File) :
    (onTemp φ).run (w.copying t n g) = .ok () (w.copying t n (φ g)) := by
  have hplan : (w.copying t n g).plan = [] := hq
  simp only [onTemp, syscall, EStateM.run, turn_quiet hplan]
  rfl

theorem wp_rename (hq : w.plan = []) (htmp : w.tmp = none) (hp : p ≠ []) {n : Nat} {g : File}
    (hok : ∀ t', t.install p g (w.clock (w.tick + n)) = .ok t' → Q () (w.setDst t' (n + 1)))
    (herr : ∀ e, t.install p g (w.clock (w.tick + n)) = .error e → E (.errno e) (w.copying t n g)) :
    WP (rename ⟨.dst, p⟩) Q E (w.copying t n g) := by
  have hplan : (w.copying t n g).plan = [] := hq
  refine wp_syscall hplan (g := fun t' => ((), w.setDst t' (n + 1))) ?_ hok herr
  obtain ⟨x, xs, rfl⟩ := List.exists_cons_of_ne_nil hp
  simp only [World.copying, World.setDst, Disk.install, Trees.onRoot, Root.install, Root.onTree,
    htmp, Nat.add_assoc]
  cases t.install (x :: xs) g (w.clock (w.tick + n)) <;> rfl

theorem after_removeTemp (hq : w.plan = []) (htmp : w.tmp = none) :
    after (removeTemp ⟨.dst, p⟩) w = w := by
  simp only [after, removeTemp, syscall, EStateM.run, turn_quiet hq, htmp]

theorem after_removeTemp_copying (hq : w.plan = []) (htmp : w.tmp = none) (hp : p ≠ [])
    {n : Nat} {g : File} (hd : t.IsDir p.dropLast) :
    after (removeTemp ⟨.dst, p⟩) (w.copying t n g) =
      w.setDst (t.stamp p.dropLast (w.clock (w.tick + n))) (n + 1) := by
  have hplan : (w.copying t n g).plan = [] := hq
  have hcall := touchParent_dst (w := w.copying t n g) hp hd (w.clock (w.tick + n))
  have hwp : WP (removeTemp ⟨.dst, p⟩)
      (fun _ w' => w' = w.setDst (t.stamp p.dropLast (w.clock (w.tick + n))) (n + 1))
      (fun _ _ => False) (w.copying t n g) := by
    refine wp_syscall hplan rfl (fun d h => ?_) fun e h => ?_
    · cases hcall.symm.trans h
      simp [World.copying, World.setDst, htmp, Nat.add_assoc]
    · cases hcall.symm.trans h
  obtain ⟨a, w', hrun, hw'⟩ := hwp.returns
  exact (after_of_ok hrun).trans hw'

/-- Making the directories above `p`, the temporary file in the last of them and
the rename, taken together. -/
theorem Copied.of_install {T : Set Time} {perm : Perm} {now : Time} {f : File} {t₁ t₂ : Tree}
    (hT : now ∈ T) (hp : p ≠ []) (hm : Tree.MadeDirs T perm p.dropLast t t₁)
    (hi : Tree.Installed T p f (t₁.stamp p.dropLast now) t₂) : Copied T perm p f t t₂ := by
  have hsub : ∀ {q}, q <+: p.dropLast → q <+: p := fun h => h.trans (List.dropLast_prefix p)
  have hpre : ∀ {q}, q ≠ p → (q <+: p.dropLast ↔ q <+: p) := by
    intro q hq
    refine ⟨hsub, fun h => ?_⟩
    have hpl := List.dropLast_append_getLast hp
    rw [← hpl] at h
    rcases List.prefix_concat_iff.1 h with rfl | h
    · exact absurd hpl hq
    · exact h
  refine ⟨?_, hm.above, fun q => ?_, fun q hq => ?_, ?_⟩
  · intro hd
    refine hi.notDir ?_
    rw [Tree.isDir_iff_shape, Tree.shape_stamp, hm.shape, if_neg fun hc => not_prefix_dropLast hp hc.1]
    exact Tree.isDir_iff_shape.1 hd
  · rw [hi.shape, Tree.shape_stamp, hm.shape]
    by_cases hq : q = p
    · rw [if_pos hq, if_pos hq]
    · simp only [if_neg hq, hpre hq]
  · have hne : q ≠ p.dropLast := fun h => hq (h ▸ List.dropLast_prefix p)
    rw [hi.frame q hq, Tree.get_stamp_of_ne hne, hm.frame q fun h => hq (hsub h)]
  · exact hm.stamped.trans ((Tree.Stamped.stamp hT t₁ _).trans hi.stamped)

/-- **`AtomicCopyFile`** of a regular file, in a quiet world. It fails where the
tree has no room for a file, and then leaves at most new directories behind. -/
theorem wp_atomicCopyFile (hq : w.plan = []) (htmp : w.tmp = none)
    (hp : p ≠ []) {f : File} {mode : Perm} {modTime : Time} (hsrc : w.srcTree.get p = some (.file f))
    (hok : ∀ t, Copied (Set.range w.clock) (0o755 &&& ~~~w.umask) p ⟨mode, modTime, f.content⟩
      w.dstTree t → Q () (w.setDst t 3))
    (herr : ∀ e t n, Grown w.dstTree t →
      (w.dstTree.IsDir p ∨ ∃ q, q <+: p.dropLast ∧ w.dstTree.Has q ∧ ¬ w.dstTree.IsDir q) →
      E e (w.setDst t n)) :
    WP (atomicCopyFile ⟨.src, p⟩ ⟨.dst, p⟩ mode modTime false) Q E w := by
  have hopen : Disk.openFile w.disk ⟨.src, p⟩ = .ok (some f) := by
    change w.srcTree.openFile p = _
    rw [Tree.openFile, hsrc]
  simp only [atomicCopyFile, Bool.false_eq_true, if_false, WP.bind_iff]
  refine WP.of_ok (query_ok hq (a := ⟨⟨.src, p⟩, some f⟩) (by rw [hopen]; rfl)) ?_
  refine wp_mkdirParent_dst hq (fun t₁ h₁ => ?_) fun e he => ?_
  · rw [Tree.mkdirParent, if_neg hp] at h₁
    have hm := Tree.mkdirAll_spec (Set.mem_range_self w.tick) h₁
    refine wp_createTemp hq hp (hm.isDir List.prefix_rfl) ?_
    simp only [wp_deferring_iff, WP.bind_iff]
    have hq₁ : (w.setDst t₁ 1).plan = [] := hq
    refine WP.of_ok (ioCopy_run hq₁ hsrc) ?_
    refine WP.of_ok (onTemp_run hq₁ _) ?_
    refine WP.of_ok (onTemp_run hq₁ _) ?_
    refine WP.of_ok (onTemp_run hq₁ _) ?_
    refine WP.of_ok (onTemp_run hq₁ _) ?_
    refine wp_rename hq₁ htmp hp (fun t₂ h₂ => ?_) fun e he => ?_
    · have hi := Tree.install_spec (Set.mem_range_self _) h₂
      have hc := Copied.of_install (Set.mem_range_self _) hp hm hi
      rw [World.setDst_setDst]
      have hq₂ : (w.setDst t₂ 3).plan = [] := hq
      refine wp_fsyncDir hq₂ (.inr (.inl (hi.has (hi.parent.resolve_left hp).has))) ?_
      rw [after_removeTemp hq₂ htmp]
      exact hok t₂ hc
    · -- the directory above is there, so a directory is in the way
      have hd : w.dstTree.IsDir p := by
        rcases Tree.install_error he with hd | ⟨-, hn⟩
        · rw [Tree.isDir_stamp, World.setDst_dst, Tree.isDir_iff_shape, hm.shape,
            if_neg fun hc => not_prefix_dropLast hp hc.1] at hd
          exact Tree.isDir_iff_shape.2 hd
        · exact absurd (Tree.isDir_stamp.2 (hm.isDir List.prefix_rfl)) hn
      have hpar : ((w.setDst t₁ 1).dstTree.stamp p.dropLast
          ((w.setDst t₁ 1).clock (w.setDst t₁ 1).tick)).IsDir p.dropLast :=
        Tree.isDir_stamp.2 (hm.isDir List.prefix_rfl)
      rw [after_removeTemp_copying hq₁ htmp hp hpar, World.setDst_setDst]
      refine herr (.errno e) _ _ ((MadeDirs.grown hm).trans (.of_shape ?_)) (.inl hd)
      rw [Tree.shape_stamp, World.setDst_dst, Tree.shape_stamp]
  · rw [Tree.mkdirParent, if_neg hp] at he
    exact herr _ w.dstTree 0 (.refl _) (.inr (Tree.mkdirAll_error he))

/-! ## `HasSymlinkInPath` -/

/-- The loop of `HasSymlinkInPath`, from `cur` on. -/
theorem symlinkBelow_run (hq : w.plan = []) (rest : Path) : ∀ cur : Path,
    ((symlinkBelow .src cur rest).run w = .ok true w ∧
      (w.srcTree.kind (cur ++ rest) = some .symlink ∨
        w.srcTree.get (cur ++ rest) = none ∧ w.srcTree.missing (cur ++ rest) = .ENOENT)) ∨
    (symlinkBelow .src cur rest).run w = .ok false w ∨
    ((symlinkBelow .src cur rest).run w = .error (.errno .ENOTDIR) w ∧
      w.srcTree.get (cur ++ rest) = none ∧ w.srcTree.missing (cur ++ rest) = .ENOTDIR) := by
  induction rest with
  | nil => exact fun cur => .inr (.inl rfl)
  | cons part rest ih =>
    intro cur
    have hpath : cur ++ part :: rest = (cur ++ [part]) ++ rest := by simp
    have hpre : cur ++ [part] <+: cur ++ part :: rest := hpath ▸ List.prefix_append _ _
    have hne : cur ++ [part] ≠ [] ∨ w.disk.src.link = none := by simp
    rw [symlinkBelow, EStateM.run_bind]
    cases hg : w.srcTree.get (cur ++ [part]) with
    | none =>
      have hnone : w.srcTree.get (cur ++ part :: rest) = none :=
        Tree.not_has_iff.1 fun h => Tree.not_has_iff.2 hg (Tree.has_of_isPrefix h hpre)
      rw [attempt_error (lstat_src_error hq hne hg)]
      rcases Tree.missing_eq (t := w.srcTree) (p := cur ++ [part]) with hm | hm <;> rw [hm]
      · exact .inr (.inr ⟨rfl, hnone, Tree.missing_enotdir_mono hm hpre⟩)
      · exact .inr (.inl rfl)
    | some n =>
      rw [attempt_ok (lstat_src_ok hq hne hg)]
      by_cases hk : n.info.kind = .symlink
      · have hkind : w.srcTree.kind (cur ++ [part]) = some .symlink := by
          rw [Tree.kind, hg, Option.map_some, Node.kind, hk]
        refine .inl ⟨by simp only [hk, if_true]; rfl, ?_⟩
        by_cases he : cur ++ [part] = cur ++ part :: rest
        · exact .inl (he ▸ hkind)
        · exact .inr (Tree.missing_below_symlink hkind hpre he)
      · simp only [hk, if_false]
        rw [hpath]
        exact ih (cur ++ [part])

/-- **`HasSymlinkInPath`**: a link is found only where the path leads nowhere or
to a link, and it fails only below a file. -/
theorem hasSymlinkInPath_run (hq : w.plan = []) :
    ((hasSymlinkInPath ⟨.src, p⟩).run w = .ok true w ∧
      (w.srcTree.kind p = some .symlink ∨ w.srcTree.get p = none ∧ w.srcTree.missing p = .ENOENT)) ∨
    (hasSymlinkInPath ⟨.src, p⟩).run w = .ok false w ∨
    ((hasSymlinkInPath ⟨.src, p⟩).run w = .error (.errno .ENOTDIR) w ∧
      w.srcTree.get p = none ∧ w.srcTree.missing p = .ENOTDIR) :=
  symlinkBelow_run hq p []

end

end Dockerset.Netfin

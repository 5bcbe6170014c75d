import Dockerset.Netfin.Steps
import Dockerset.Os.Mount

/-!
# A `Reconcile` whose source walk fails

The deletion phase comes after the walk, with the complete `seen` set: when the
walk fails, for whatever reason, it does not run. The walk itself removes
nothing. It makes directories where nothing was, and it renames finished copies
over what is no directory; a link or a special file in the place of a regular
file's backup becomes a regular file that way.
-/

namespace Dockerset.Netfin
open Go Os Logic

/-- An entry is still of its kind, or a link or special file has been replaced by a
regular file. -/
def KindKept (k k' : Option Kind) : Prop :=
  k = none ∨ k' = k ∨ (k = some .symlink ∨ k = some .special) ∧ k' = some .file

/-- That holds of every entry in `Z`. -/
def KindsKept (Z : Set Path) (t t' : Tree) : Prop := ∀ q ∈ Z, KindKept (t.kind q) (t'.kind q)

section Trees

variable {Z : Set Path} {t t' t'' : Tree} {p : Path} {perm : Perm} {now : Time}

theorem KindsKept.refl (Z : Set Path) (t : Tree) : KindsKept Z t t := fun _ _ => .inr (.inl rfl)

theorem KindKept.trans {k k' k'' : Option Kind} (h : KindKept k k') (h' : KindKept k' k'') :
    KindKept k k'' := by
  rcases h with rfl | rfl | ⟨hk, rfl⟩
  · exact .inl rfl
  · exact h'
  · rcases h' with h' | rfl | ⟨h', -⟩
    · cases h'
    · exact .inr (.inr ⟨hk, rfl⟩)
    · rcases h' with h' | h' <;> cases h'

theorem KindsKept.trans (h : KindsKept Z t t') (h' : KindsKept Z t' t'') : KindsKept Z t t'' :=
  fun q hq => (h q hq).trans (h' q hq)

theorem KindsKept.of_has (h : ∀ q, t.Has q → t'.kind q = t.kind q) : KindsKept Z t t' := by
  intro q _
  by_cases hq : t.Has q
  · exact .inr (.inl (h q hq))
  · refine .inl ?_
    rw [Tree.kind, Tree.not_has_iff.1 hq]
    rfl

theorem KindsKept.stamp (Z : Set Path) (t : Tree) (p : Path) (now : Time) :
    KindsKept Z t (t.stamp p now) :=
  .of_has fun q _ => by rw [Tree.kind_eq_shape, Tree.shape_stamp, ← Tree.kind_eq_shape]

theorem KindsKept.mkdir (Z : Set Path) (t : Tree) (p : Path) (perm : Perm) (now : Time) :
    KindsKept Z t (t.mkdir p perm now) := by
  unfold Tree.mkdir
  split
  · exact .refl Z t
  · next hno =>
    refine KindsKept.trans (.of_has fun q hq => ?_) (.stamp Z _ _ now)
    by_cases hadm : t.Admits p (.dir ⟨perm, newDirSize, now⟩)
    · have hne : q ≠ p := fun h => hno (h ▸ hq)
      rw [Tree.kind, Tree.get_put hadm, if_neg hne, ← Tree.kind]
    · rw [Tree.put, dif_neg hadm]

/-- **The rename** replaces what is no directory by a regular file. -/
theorem KindsKept.install {f : File} (h : t.install p f now = .ok t') : KindsKept Z t t' := by
  have hinst := Tree.install_spec (Set.mem_univ _) h
  intro q _
  rw [Tree.kind_eq_shape t', hinst.shape]
  by_cases hqp : q = p
  · rw [if_pos hqp, hqp]
    cases hk : t.kind p with
    | none => exact .inl rfl
    | some k =>
      cases k with
      | dir => exact absurd hk hinst.notDir
      | file => exact .inr (.inl rfl)
      | symlink => exact .inr (.inr ⟨.inl rfl, rfl⟩)
      | special => exact .inr (.inr ⟨.inr rfl, rfl⟩)
  · rw [if_neg hqp, ← Tree.kind_eq_shape]
    exact .inr (.inl rfl)

end Trees

theorem changes_kindsKept (Z : Set Path) : Changes (fun _ => True) (fun _ => True)
    fun fs fs' => KindsKept Z fs.tree fs'.tree where
  refl fs := .refl Z fs.tree
  trans := KindsKept.trans
  stamp fs now _ := .stamp Z fs.tree _ now
  mkdir fs perm now _ := .mkdir Z fs.tree _ perm now
  install _ _ h := .install h

theorem writesKeep_kinds (Z : Set Path) (t₀ : Tree) (l : Loc) :
    WritesKeep (fun m : Mount => KindsKept Z t₀ m.fs.tree) l := by
  have hR := changes_kindsKept Z
  have honFs : ∀ {m m' : Mount} {fs : Except Errno Fs}, KindsKept Z t₀ m.fs.tree →
      m.onFs fs = .ok m' → (∀ fs', fs = .ok fs' → KindsKept Z m.fs.tree fs'.tree) →
      KindsKept Z t₀ m'.fs.tree := by
    intro m m' fs h hm hfs
    cases fs with
    | error e => cases hm
    | ok fs' =>
      cases hm
      exact h.trans (hfs fs' rfl)
  constructor
  · intro m m' perm now h hm
    exact honFs h hm fun fs' hfs => hR.mkdirAll (fun _ _ _ _ _ _ => trivial) hfs
  · intro m m' perm now h hm
    exact honFs h hm fun fs' hfs => hR.mkdirAll (fun _ _ _ _ _ _ => trivial) hfs
  · intro m m' now h hm
    exact honFs h hm fun fs' hfs => hR.touch (fun _ _ => trivial) hfs
  · intro m m' f now h hm
    exact honFs h hm fun fs' hfs => hR.installFs (fun _ _ => trivial) hfs

/-- No entry of the state map has been dropped, and the flag is what it was. -/
def Remembers (s₀ s : Syncer) : Prop :=
  (∀ p, s₀.state.lookup p ≠ none → s.state.lookup p ≠ none) ∧ s.reconciled = s₀.reconciled

theorem mirrorKeeps_kinds (Z : Set Path) (t₀ : Tree) (s₀ : Syncer) :
    MirrorKeeps (fun _ => True) (fun m : Mount => KindsKept Z t₀ m.fs.tree) (Remembers s₀) where
  below _ _ _ := trivial
  writes _ p _ _ _ := writesKeep_kinds Z t₀ ⟨.dst, p⟩
  remember s p st _ hs := by
    unfold Syncer.remember
    split
    · exact hs
    · refine ⟨fun q hq => ?_, hs.2⟩
      show (s.state.insert p st).lookup q ≠ none
      rw [AList.lookup_insert_eq_ite]
      split
      · simp
      · exact hs.1 q hq

/-- **An incomplete scan deletes nothing.** Wherever the source walk of `Reconcile`
fails, `Reconcile` returns the error; what was there, at the paths that the others
leave alone, is there and of its kind, but for links and special files that made
way for a regular file; and the state map has lost no entry. -/
theorem failed_scan_keeps {Z : Set Path} {r r' : Run Mount} {e : Err}
    (hothers : ∀ ev ∈ r.world.plan, ∀ m : Mount, KindsKept Z m.fs.tree (ev.edit m).fs.tree)
    (hscan : (mirrorWalk (fun _ => pure ()) []).run r = .error e r') :
    reconcile.run r = .error e r' ∧
    KindsKept Z r.world.disk.fs.tree r'.world.disk.fs.tree ∧
    (∀ p, r.syncer.state.lookup p ≠ none → r'.syncer.state.lookup p ≠ none) ∧
    r'.syncer.reconciled = r.syncer.reconciled := by
  have hstart : HeldWith (fun m : Mount => KindsKept Z r.world.disk.fs.tree m.fs.tree)
      (Remembers r.syncer) r :=
    ⟨⟨.refl Z _, fun ev hev m hm => hm.trans (hothers ev hev m)⟩, fun _ h => h, rfl⟩
  have hwalk : Preserves _ (mirrorWalk (fun _ => pure ()) []) :=
    ((mirrorKeeps_kinds Z r.world.disk.fs.tree r.syncer).mirrors fun _ h => h).mirrorWalk
      (fun _ _ => preserves_pure _) trivial
  have hend := (hwalk r hstart).error hscan
  refine ⟨?_, hend.1.1, hend.2.1, hend.2.2⟩
  show (getSyncer >>= _ : SyncM Mount Unit).run r = _
  rw [EStateM.run_bind]
  show (mirrorWalk (fun _ => pure ()) [] >>= _ : SyncM Mount Unit).run r = _
  rw [EStateM.run_bind, hscan]

/-- A file `a` and a directory `b` in the source; in the destination a link `a` and a
regular file `b`. -/
def linkInTheWay : Run Mount where
  world := .resting
    { tree := .ofList [([], .dir ⟨0o755, 4096, 1⟩), ((clean "/src").comps, .dir ⟨0o755, 4096, 1⟩),
        ((clean "/src/a").comps, .file ⟨0o644, 5, [1, 2]⟩),
        ((clean "/src/b").comps, .dir ⟨0o755, 4096, 1⟩),
        ((clean "/dst").comps, .dir ⟨0o755, 4096, 1⟩),
        ((clean "/dst/a").comps, .symlink ⟨0o777, 1, 1⟩),
        ((clean "/dst/b").comps, .file ⟨0o644, 3, [9]⟩)]
      text := fun _ => ['x'] }
    (clean "/src").comps (clean "/dst").comps fun n => 100 + n
  syncer := .new [] false
  seen := []

/-- The walk copies `a`, and fails at `b`, which is a file in the destination. -/
theorem link_replaced_before_failure : linkInTheWay.world.plan = [] ∧
    returns (mirrorWalk (fun _ => pure ()) []) linkInTheWay = false ∧
    returns reconcile linkInTheWay = false ∧
    linkInTheWay.world.disk.fs.tree.kind (clean "/dst/a").comps = some .symlink ∧
    (after reconcile linkInTheWay).world.disk.fs.tree.kind (clean "/dst/a").comps = some .file :=
  ⟨rfl, by decide +kernel, by decide +kernel, by decide +kernel, by decide +kernel⟩

/-- Nothing is lost from the destination, and `a` is remembered. -/
theorem failed_scan_keeps_link : ∃ e r',
    (mirrorWalk (fun _ => pure ()) []).run linkInTheWay = .error e r' ∧
    reconcile.run linkInTheWay = .error e r' ∧
    KindsKept Set.univ linkInTheWay.world.disk.fs.tree r'.world.disk.fs.tree ∧
    r'.syncer.state.lookup (clean "/a").comps ≠ none := by
  obtain ⟨e, hscan⟩ := run_of_fails (x := mirrorWalk (fun _ => pure ()) []) (s := linkInTheWay)
    (by decide +kernel)
  obtain ⟨hrun, hkinds, -⟩ := failed_scan_keeps (Z := Set.univ) (r := linkInTheWay)
    (fun _ hev => by cases hev) hscan
  exact ⟨e, _, hscan, hrun, hkinds, by decide +kernel⟩

end Dockerset.Netfin

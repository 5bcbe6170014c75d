import Dockerset.Netfin.SafeioQuiet
import Dockerset.Os.Faults

/-!
# `AtomicCopyFile` under faults

Every call of `AtomicCopyFile` may fail, and the process may be killed between
any two of them. The new content is put together in the temporary file; the
destination changes in one call, the rename, and by then the temporary file is
complete. The deferred removal finds nothing after the rename.
-/

namespace Dockerset.Netfin
open Go Os Logic

/-- Seen from `d₀`, only `p` may have changed: it holds `n` now. Directories above
it may have been made, and are stamped. -/
structure Around (p : Path) (n : Option Node) (d₀ d : Trees) : Prop where
  src : d.src = d₀.src
  link : d.dst.link = d₀.dst.link
  dest : d.dst.tree.get p = n
  others : ∀ q, q ≠ p → d₀.dst.tree.Has q → d.dst.tree.shape q = d₀.dst.tree.shape q
  frame : ∀ q, ¬ q <+: p → d.dst.tree.get q = d₀.dst.tree.get q

/-- The directory that is to hold `p` is there. -/
def Room (p : Path) (t : Tree) : Prop := p = [] ∨ t.IsDir p.dropLast

section Around

variable {p : Path} {n : Option Node} {d₀ d d' : Trees} {t : Tree} {src : Loc} {f : File}

theorem Around.refl (p : Path) (d : Trees) : Around p (d.dst.tree.get p) d d :=
  ⟨rfl, rfl, rfl, fun _ _ _ => rfl, fun _ _ => rfl⟩

/-- The calls before the rename change the shape of nothing that is there. -/
theorem Around.grow (h : Around p n d₀ d) (hgrown : Grown d.dst.tree t)
    (hframe : ∀ q, q = p ∨ ¬ q <+: p → t.get q = d.dst.tree.get q) :
    Around p n d₀ { d with dst := { d.dst with tree := t } } := by
  refine ⟨h.src, h.link, ?_, fun q hq hhas => ?_, fun q hq => ?_⟩
  · show t.get p = n
    rw [hframe p (.inl rfl)]
    exact h.dest
  · have hshape := h.others q hq hhas
    have hhas' : d.dst.tree.Has q := by rw [Tree.has_iff_shape, hshape, ← Tree.has_iff_shape]; exact hhas
    show t.shape q = _
    rw [hgrown.keep q hhas', hshape]
  · show t.get q = _
    rw [hframe q (.inr hq), h.frame q hq]

/-- The file that is read stays what it is: at worst it is the destination itself. -/
theorem Around.openFile (h : Around p (d₀.dst.tree.get p) d₀ d)
    (hopen : Disk.openFile d₀ src = .ok (some f)) : Disk.openFile d src = .ok (some f) := by
  obtain ⟨side, q⟩ := src
  cases side with
  | src =>
    show d.src.tree.openFile q = _
    rw [h.src]
    exact hopen
  | dst =>
    have hget : d₀.dst.tree.get q = some (.file f) := by
      have hq : d₀.dst.tree.openFile q = .ok (some f) := hopen
      unfold Tree.openFile at hq
      split at hq <;> simp_all
    have hget' : d.dst.tree.get q = some (.file f) := by
      by_cases hqp : q = p
      · rw [hqp, h.dest, ← hqp, hget]
      · rw [Tree.get_file_iff_shape, h.others q hqp (Tree.has_of_get hget)]
        exact Tree.get_file_iff_shape.1 hget
    show d.dst.tree.openFile q = _
    rw [Tree.openFile, hget']

/-- **`os.MkdirAll(filepath.Dir(dst))`** makes room. -/
theorem Around.mkdirParent {perm : Perm} {now : Time} (h : Around p n d₀ d)
    (hm : d.dst.tree.mkdirParent p perm now = .ok t) :
    Around p n d₀ { d with dst := { d.dst with tree := t } } ∧ Room p t := by
  unfold Tree.mkdirParent at hm
  split at hm
  · next hp =>
    cases hm
    exact ⟨h, .inl hp⟩
  · next hp =>
    have hmade := Tree.mkdirAll_spec (Set.mem_univ _) hm
    refine ⟨h.grow (MadeDirs.grown hmade) fun q hq => hmade.frame q fun hpre => ?_,
      .inr (hmade.isDir List.prefix_rfl)⟩
    rcases hq with rfl | hq
    · exact not_prefix_dropLast hp hpre
    · exact hq (hpre.trans (List.dropLast_prefix p))

theorem Around.touchParent (h : Around p n d₀ d)
    (hroom : Room p d.dst.tree) (now : Time) : ∃ t, Disk.touchParent d ⟨.dst, p⟩ now =
      .ok { d with dst := { d.dst with tree := t } } ∧
      Around p n d₀ { d with dst := { d.dst with tree := t } } ∧ Room p t := by
  by_cases hp : p = []
  · refine ⟨d.dst.tree, ?_, h, .inl hp⟩
    show d.onRoot .dst _ = _
    simp only [Trees.onRoot, Root.onTree, Tree.touchParent, if_pos hp]
    rfl
  · have hdir := hroom.resolve_left hp
    refine ⟨d.dst.tree.stamp p.dropLast now, ?_, h.grow (.of_shape ?_) fun q hq => ?_,
      .inr (Tree.isDir_stamp.2 hdir)⟩
    · show d.onRoot .dst _ = _
      simp only [Trees.onRoot, Root.onTree, Tree.touchParent, if_neg hp]
      rw [if_pos hdir]
      rfl
    · exact Tree.shape_stamp _ _ _
    · apply Tree.get_stamp_of_ne
      rintro rfl
      rcases hq with hq | hq
      · exact dropLast_ne_self hp hq
      · exact hq (List.dropLast_prefix p)

/-- **`os.Rename`** of the temporary file: from now on `p` holds it. -/
theorem Around.install {now : Time} (h : Around p n d₀ d)
    (hi : d.dst.tree.install p f now = .ok t) :
    Around p (some (.file f)) d₀ { d with dst := { d.dst with tree := t } } := by
  have hinst := Tree.install_spec (Set.mem_univ _) hi
  refine ⟨h.src, h.link, ?_, fun q hq hhas => ?_, fun q hq => ?_⟩
  · apply Tree.get_file_iff_shape.2
    show t.shape p = _
    rw [hinst.shape, if_pos rfl]
  · show t.shape q = _
    rw [hinst.shape, if_neg hq, h.others q hq hhas]
  · show t.get q = _
    rw [hinst.frame q hq, h.frame q hq]

end Around

/-- The copy of the source is at `p`, with the requested permission bits and
modification time. -/
def Complete (w : World Trees) (src : Loc) (p : Path) (mode : Perm) (modTime : Time) (d : Trees) :
    Prop :=
  ∃ f, Disk.openFile w.disk src = .ok (some f) ∧
    Around p (some (.file ⟨mode, modTime, f.content⟩)) w.disk d

/-- No copy is under way, and nothing has been done at `p`. -/
def Idle (w : World Trees) (p : Path) (d : Trees) (t : Option File) : Prop :=
  Around p (w.dstTree.get p) w.disk d ∧ t = none

/-- A copy is under way, with `P` of its temporary file. -/
def UnderWay (w : World Trees) (p : Path) (P : File → Prop) (d : Trees) (t : Option File) : Prop :=
  Around p (w.dstTree.get p) w.disk d ∧ Room p d.dst.tree ∧ ∃ g, t = some g ∧ P g

/-- How `AtomicCopyFile` may leave the world: at `p` is what was there before, or
the complete copy. A temporary file remains only if its removal fails too. -/
structure AllOrNothing (w : World Trees) (src : Loc) (p : Path) (mode : Perm) (modTime : Time)
    (w' : World Trees) : Prop where
  dest : Around p (w.dstTree.get p) w.disk w'.disk ∨ Complete w src p mode modTime w'.disk
  temp : ∀ f, Disk.openFile w.disk src = .ok (some f) → w.faults ≤ w'.faults + 1 → w'.tmp = none

section Copy

variable {w w₁ : World Trees} {src : Loc} {p : Path} {f : File} {mode : Perm} {modTime : Time}
  {P R : File → Prop} {n : Nat} {Q : Unit → World Trees → Prop} {E : Err → World Trees → Prop}

theorem UnderWay.weaken {d : Trees} {t : Option File} (h : UnderWay w p P d t) :
    UnderWay w p (fun _ => True) d t := by
  obtain ⟨haround, hroom, g, hg, -⟩ := h
  exact ⟨haround, hroom, g, hg, trivial⟩

theorem Left.allOrNothing (h : Left n (Idle w p) w₁) : AllOrNothing w src p mode modTime w₁ :=
  ⟨.inl h.holds.1, fun _ _ _ => h.holds.2⟩

theorem wp_createTemp_faults (h : Left n (fun d t => Idle w p d t ∧ Room p d.dst.tree) w₁)
    (hok : ∀ w₂, Left n (UnderWay w p fun _ => True) w₂ → Q () w₂)
    (herr : ∀ w₂ e m, Left m (Idle w p) w₂ → E e w₂) : WP (createTemp ⟨.dst, p⟩) Q E w₁ := by
  refine h.wp_syscall (fun _ => rfl) (fun w₂ d h₂ hx => ?_) (fun w₂ e h₂ _ => ?_) fun w₂ e m _ h₂ => ?_
  · obtain ⟨t, htouch, haround, hroom⟩ := h₂.holds.1.1.touchParent h₂.holds.2 (w₂.clock w₂.tick)
    rw [htouch] at hx
    cases hx
    exact hok _ (h₂.act rfl fun _ => ⟨haround, hroom, _, rfl, trivial⟩)
  · exact herr w₂ _ n (h₂.mono fun _ _ hd => hd.1)
  · exact herr w₂ _ m (h₂.mono fun _ _ hd => hd.1)

theorem wp_onTemp_faults (φ : File → File) (h : Left n (UnderWay w p P) w₁)
    (hφ : ∀ g, P g → R (φ g)) (hok : ∀ w₂, Left n (UnderWay w p R) w₂ → Q () w₂)
    (herr : ∀ w₂ e m, m < n → Left m (UnderWay w p fun _ => True) w₂ → E e w₂) :
    WP (onTemp φ) Q E w₁ := by
  refine h.wp_onTemp φ (fun w₂ h₂ => ?_) fun w₂ e m hn h₂ => ?_
  · refine hok _ (h₂.act rfl ?_)
    rintro ⟨haround, hroom, g, hg, hP⟩
    exact ⟨haround, hroom, φ g, by rw [hg]; rfl, hφ g hP⟩
  · exact herr w₂ _ m (by omega) (h₂.mono fun _ _ hd => hd.weaken)

/-- **The rename** fails only by a fault: there is room, and no directory is in the
way. -/
theorem wp_rename_faults (h : Left n (UnderWay w p P) w₁) (hlink : p ≠ [] ∨ w.disk.dst.link = none)
    (hprior : ¬ w.dstTree.IsDir p)
    (hok : ∀ w₂ g, P g → Left n (fun d t => Around p (some (.file g)) w.disk d ∧ t = none) w₂ →
      Q () w₂)
    (herr : ∀ w₂ e m, m < n → Left m (UnderWay w p fun _ => True) w₂ → E e w₂) :
    WP (rename ⟨.dst, p⟩) Q E w₁ := by
  have hinstall : ∀ {d : Trees} (g : File) (now : Time), Around p (w.dstTree.get p) w.disk d →
      Disk.install d ⟨.dst, p⟩ g now = (d.dst.tree.install p g now).map fun t =>
        { d with dst := { d.dst with tree := t } } := by
    intro d g now hd
    show d.onRoot .dst _ = _
    have hroot : d.dst.install p g now = d.dst.onTree fun t => t.install p g now := by
      unfold Root.install
      split
      · next heq =>
        rw [hd.link] at heq
        rw [hlink.resolve_left (by simp)] at heq
        cases heq
      · rfl
    simp only [Trees.onRoot, hroot, Root.onTree]
    cases d.dst.tree.install p g now <;> rfl
  refine h.wp_takeTemp (fun w₂ g d h₂ hg hx => ?_) (fun w₂ e h₂ hnone => ?_)
    (fun w₂ g e h₂ hg hx => ?_) fun w₂ e m hn h₂ => ?_
  · obtain ⟨haround, -, g', hg', hP⟩ := h₂.holds
    cases hg.symm.trans hg'
    rw [hinstall g _ haround] at hx
    cases hi : w₂.dstTree.install p g (w₂.clock w₂.tick) with
    | error e => simp [hi, Except.map] at hx
    | ok t =>
      simp only [hi, Except.map, Except.ok.injEq] at hx
      subst hx
      exact hok _ g hP (h₂.act rfl fun _ => ⟨haround.install hi, rfl⟩)
  · obtain ⟨-, -, g, hg, -⟩ := h₂.holds
    cases hnone.symm.trans hg
  · obtain ⟨haround, hroom, -⟩ := h₂.holds
    rw [hinstall g _ haround] at hx
    cases hi : w₂.dstTree.install p g (w₂.clock w₂.tick) with
    | ok t => simp [hi, Except.map] at hx
    | error e' =>
      rcases Tree.install_error hi with hdir | ⟨hp, hno⟩
      · rw [Tree.IsDir, Tree.kind, haround.dest] at hdir
        exact absurd hdir hprior
      · exact absurd (hroom.resolve_left hp) hno
  · exact herr w₂ _ m (by omega) (h₂.mono fun _ _ hd => hd.weaken)

theorem wp_fsyncDir_faults {Φ : Trees → Option File → Prop} (h : Left n Φ w₁)
    (hok : ∀ w₂ m, Left m Φ w₂ → Q () w₂) (herr : ∀ w₂ e m, Left m Φ w₂ → E e w₂) :
    WP (fsyncDir ⟨.dst, p⟩) Q E w₁ := by
  rw [fsyncDir, WP.bind_iff, wp_attempt_iff]
  refine h.wp_query (fun w₂ _ h₂ _ => ?_) (fun w₂ e h₂ _ => ?_) fun w₂ e m _ h₂ => ?_
  · simp only [WP.bind_iff, wp_attempt_iff]
    exact h₂.wp_syscall (x := fun _ => .ok ()) (g := fun w₃ _ => ((), w₃)) (fun _ => rfl)
      (fun w₃ _ h₃ _ => hok w₃ n h₃) (fun _ _ _ he => by cases he) fun w₃ e m _ h₃ => herr w₃ _ m h₃
  · cases e with
    | ENOENT => exact hok w₂ n h₂
    | _ => exact herr w₂ _ n h₂
  · cases e with
    | ENOENT => exact hok w₂ m h₂
    | _ => exact herr w₂ _ m h₂

/-- **The deferred removal** after a failure: it fails only by another fault. -/
theorem allOrNothing_removeTemp (h : Left n (UnderWay w p P) w₁)
    (hn : ∀ f, Disk.openFile w.disk src = .ok (some f) → n < w.faults) :
    AllOrNothing w src p mode modTime (after (removeTemp ⟨.dst, p⟩) w₁) := by
  apply WP.after
  refine h.wp_takeTemp (fun w₂ g d h₂ hg hx => ?_) (fun w₂ e h₂ hnone => ?_)
    (fun w₂ g e h₂ hg hx => ?_) fun w₂ e m hm h₂ => ?_
  · obtain ⟨haround, hroom, -⟩ := h₂.holds
    obtain ⟨t, htouch, haround', -⟩ := haround.touchParent hroom (w₂.clock w₂.tick)
    cases htouch.symm.trans hx
    exact ⟨.inl haround', fun _ _ _ => rfl⟩
  · exact ⟨.inl h₂.holds.1, fun _ _ _ => hnone⟩
  · obtain ⟨haround, hroom, -⟩ := h₂.holds
    obtain ⟨t, htouch, -, -⟩ := haround.touchParent hroom (w₂.clock w₂.tick)
    cases htouch.symm.trans hx
  · refine ⟨.inl h₂.holds.1, fun f hf hone => ?_⟩
    have hlt := hn f hf
    have hleft := h₂.faults
    omega

theorem after_removeTemp_done {Φ : Trees → Option File → Prop} (h : Left n Φ w₁)
    (hΦ : ∀ d t, Φ d t → t = none) : ∃ m, Left m Φ (after (removeTemp ⟨.dst, p⟩) w₁) := by
  refine WP.after (P := fun w₂ => ∃ m, Left m Φ w₂) ?_
  refine h.wp_takeTemp (fun w₂ g d h₂ hg _ => ?_) (fun w₂ e h₂ _ => ⟨n, h₂⟩)
    (fun w₂ g e h₂ _ _ => ⟨n, h₂⟩) fun w₂ e m _ h₂ => ⟨m, h₂⟩
  cases hg.symm.trans (hΦ _ _ h₂.holds)

/-- The body of the deferred removal, from the opened file on. -/
theorem wp_fillTemp_faults {h : Handle} (hunder : Left w.faults (UnderWay w p fun _ => True) w₁)
    (hlink : p ≠ [] ∨ w.disk.dst.link = none) (hprior : ¬ w.dstTree.IsDir p)
    (hopen : Disk.openFile w.disk src = .ok h.file) (hloc : h.loc = src)
    (hok : ∀ w₂ m, Left m (fun d t => Complete w src p mode modTime d ∧ t = none) w₂ → Q () w₂)
    (hdone : ∀ w₂ e m, Left m (fun d t => Complete w src p mode modTime d ∧ t = none) w₂ → E e w₂)
    (herr : ∀ w₂ e m, Left m (UnderWay w p fun _ => True) w₂ →
      (∀ f, Disk.openFile w.disk src = .ok (some f) → m < w.faults) → E e w₂) :
    WP (do
      ioCopy h
      onTemp fun f => { f with perm := mode }
      onTemp fun f => { f with mtime := modTime }
      onTemp id
      onTemp id
      rename ⟨.dst, p⟩
      fsyncDir ⟨.dst, p⟩ : Sys Trees Unit) Q E w₁ := by
  have hfail : ∀ w₂ e m, m < w.faults → Left m (UnderWay w p fun _ => True) w₂ → E e w₂ :=
    fun w₂ e m hm h₂ => herr w₂ e m h₂ fun _ _ => hm
  obtain ⟨loc, file⟩ := h
  subst hloc
  rw [WP.bind_iff]
  cases file with
  | none =>
    -- a directory opens but cannot be read
    refine .of_error rfl (herr w₁ _ _ hunder fun f hf => ?_)
    cases hopen.symm.trans hf
  | some f =>
    refine (hunder.wp_ioCopy fun d t hd => hd.1.openFile hopen).mono ?_ ?_
    · rintro _ _ ⟨w₂, h₂, rfl⟩
      have hfull : Left w.faults (UnderWay w p fun g => g.content = f.content)
          { w₂ with tmp := w₂.tmp.map fun g => { g with content := f.content } } := by
        refine h₂.act rfl ?_
        rintro ⟨haround, hroom, g, hg, -⟩
        exact ⟨haround, hroom, { g with content := f.content }, by rw [hg]; rfl, rfl⟩
      simp only [WP.bind_iff]
      refine wp_onTemp_faults (R := fun g => g.content = f.content ∧ g.perm = mode) _ hfull
        (fun g hg => ⟨hg, rfl⟩) (fun w₃ h₃ => ?_) hfail
      refine wp_onTemp_faults (R := fun g => g = ⟨mode, modTime, f.content⟩) _ h₃
        (fun g hg => ?_) (fun w₄ h₄ => ?_) hfail
      · rw [← hg.1, ← hg.2]
      refine wp_onTemp_faults (R := fun g => g = ⟨mode, modTime, f.content⟩) _ h₄
        (fun g hg => hg) (fun w₅ h₅ => ?_) hfail
      refine wp_onTemp_faults (R := fun g => g = ⟨mode, modTime, f.content⟩) _ h₅
        (fun g hg => hg) (fun w₆ h₆ => ?_) hfail
      refine wp_rename_faults h₆ hlink hprior (fun w₇ g hg h₇ => ?_) hfail
      have hcomplete : Left w.faults (fun d t => Complete w loc p mode modTime d ∧ t = none) w₇ := by
        refine h₇.mono fun d t hd => ⟨⟨f, hopen, ?_⟩, hd.2⟩
        rw [← hg]
        exact hd.1
      exact wp_fsyncDir_faults hcomplete hok hdone
    · rintro e w₂ ⟨m, hm, h₂⟩
      exact hfail w₂ e m (by omega) h₂

/-- **`AtomicCopyFile`**: every failure before the rename leaves the destination as
it was, and every one after it the complete copy. -/
theorem wp_atomicCopyFile_faults (src : Loc) (mode : Perm) (modTime : Time) (halone : w.Alone)
    (htmp : w.tmp = none) (hlink : p ≠ [] ∨ w.disk.dst.link = none) (hprior : ¬ w.dstTree.IsDir p) :
    WP (atomicCopyFile src ⟨.dst, p⟩ mode modTime false)
      (fun _ w' => AllOrNothing w src p mode modTime w' ∧ Complete w src p mode modTime w'.disk)
      (fun _ w' => AllOrNothing w src p mode modTime w') w := by
  have hstart : Left w.faults (fun d t => d = w.disk ∧ t = none) w := ⟨halone, rfl, rfl, htmp⟩
  have hidle : ∀ (d : Trees) (t : Option File), d = w.disk ∧ t = none → Idle w p d t := by
    rintro d t ⟨rfl, rfl⟩
    exact ⟨Around.refl p w.disk, rfl⟩
  have hcomplete : ∀ (w₁ : World Trees) (m : Nat),
      Left m (fun d t => Complete w src p mode modTime d ∧ t = none) w₁ →
      AllOrNothing w src p mode modTime (after (removeTemp ⟨.dst, p⟩) w₁) ∧
        Complete w src p mode modTime (after (removeTemp ⟨.dst, p⟩) w₁).disk := by
    intro w₁ m h₁
    obtain ⟨k, h₂⟩ := after_removeTemp_done (p := p) h₁ fun _ _ hd => hd.2
    exact ⟨⟨.inr h₂.holds.1, fun _ _ _ => h₂.holds.2⟩, h₂.holds.1⟩
  simp only [atomicCopyFile, Bool.false_eq_true, if_false, WP.bind_iff]
  refine hstart.wp_query (fun w₁ h h₁ hopen => ?_)
    (fun w₁ e h₁ _ => Left.allOrNothing (h₁.mono hidle))
    fun w₁ e m _ h₁ => Left.allOrNothing (h₁.mono hidle)
  have hhandle : Disk.openFile w.disk src = .ok h.file ∧ h.loc = src := by
    rw [h₁.holds.1] at hopen
    cases hfile : Disk.openFile w.disk src with
    | error e => simp [hfile, Except.map] at hopen
    | ok file =>
      simp only [hfile, Except.map, Except.ok.injEq] at hopen
      rw [← hopen]
      exact ⟨rfl, rfl⟩
  refine (h₁.mono hidle).wp_syscall (fun w₂ => mkdirParent_dst_eq w₂ p 0o755)
    (fun w₂ t h₂ ht => ?_) (fun w₂ e h₂ _ => Left.allOrNothing h₂)
    fun w₂ e m _ h₂ => Left.allOrNothing h₂
  have hroom : Left w.faults (fun d t => Idle w p d t ∧ Room p d.dst.tree) (w₂.setDst t 1) := by
    obtain ⟨haround, hroom⟩ := h₂.holds.1.mkdirParent ht
    exact h₂.act rfl fun hd => ⟨⟨haround, hd.2⟩, hroom⟩
  refine wp_createTemp_faults hroom (fun w₃ h₃ => ?_) fun w₃ e m h₃ => Left.allOrNothing h₃
  rw [wp_deferring_iff]
  refine wp_fillTemp_faults h₃ hlink hprior hhandle.1 hhandle.2 hcomplete
    (fun w₄ e m h₄ => (hcomplete w₄ m h₄).1) fun w₄ e m h₄ hm => ?_
  exact allOrNothing_removeTemp h₄ hm

end Copy

/-- **All or nothing.** Whichever calls fail: the destination holds what it held
before or the complete copy, the latter when nil is returned; nothing else has
changed; and the temporary file is gone unless its removal failed as well. If the
process is killed after any number of calls, the destination is one of the two. -/
theorem atomicCopyFile_allOrNothing (w : World Trees) (src : Loc) (p : Path) (mode : Perm)
    (modTime : Time) (halone : w.Alone) (htmp : w.tmp = none)
    (hprior : ∀ i, Disk.lstat w.disk ⟨.dst, p⟩ = .ok i → i.kind = .file) :
    AllOrNothing w src p mode modTime
      (after (atomicCopyFile src ⟨.dst, p⟩ mode modTime false) w) ∧
    (returns (atomicCopyFile src ⟨.dst, p⟩ mode modTime false) w = true →
      Complete w src p mode modTime
        (after (atomicCopyFile src ⟨.dst, p⟩ mode modTime false) w).disk) ∧
    ∀ n k, AllOrNothing (w.killedAfter n k) src p mode modTime
      (after (atomicCopyFile src ⟨.dst, p⟩ mode modTime false) (w.killedAfter n k)) := by
  have hlink : p ≠ [] ∨ w.disk.dst.link = none := by
    by_contra hc
    obtain ⟨hnil, hsome⟩ := not_or.1 hc
    obtain ⟨a, ha⟩ := Option.ne_none_iff_exists'.1 hsome
    have hlstat : Disk.lstat w.disk ⟨.dst, p⟩ = .ok (a.info .symlink) := by
      rw [not_not.1 hnil]
      show w.disk.dst.lstat [] = _
      simp only [Root.lstat, ha]
    cases hprior _ hlstat
  have hnodir : ¬ w.dstTree.IsDir p := by
    intro hdir
    obtain ⟨a, ha⟩ := Tree.isDir_iff.1 hdir
    have hkind := hprior _ ((Root.lstat_eq hlink).trans (Tree.lstat_of_get ha))
    cases hkind
  have hwp := wp_atomicCopyFile_faults src mode modTime halone htmp hlink hnodir
  refine ⟨(hwp.mono (fun _ _ h => h.1) fun _ _ h => h).after, fun hret => ?_, fun n k => ?_⟩
  · obtain ⟨_, hrun⟩ := run_of_returns hret
    exact (hwp.ok hrun).2
  · have hkill := wp_atomicCopyFile_faults src mode modTime (w := w.killedAfter n k)
      (halone.killedAfter n k) htmp hlink hnodir
    exact (hkill.mono (fun _ _ h => h.1) fun _ _ h => h).after

/-- A file to be copied over an older one; its rename is made to fail. -/
def renameFails : World Trees :=
  { World.still (.ofList [([], .dir ⟨0o755, 4096, 1⟩), ((clean ['a']).comps, .file ⟨0o644, 7, [1, 2]⟩)])
      (.ofList [([], .dir ⟨0o755, 4096, 1⟩), ((clean ['a']).comps, .file ⟨0o600, 3, [9]⟩)])
      fun n => 100 + n with
    plan := List.replicate 10 ⟨id, none, 0, []⟩ ++ [⟨id, some Errno.EIO, 0, []⟩] }

/-- The older file is still there and the temporary one is gone. -/
theorem atomicCopyFile_allOrNothing_rename :
    renameFails.Alone ∧ renameFails.tmp = none ∧ renameFails.faults = 1 ∧
    returns (atomicCopyFile ⟨.src, (clean ['a']).comps⟩ ⟨.dst, (clean ['a']).comps⟩ 0o644 7 false)
      renameFails = false ∧
    (after (atomicCopyFile ⟨.src, (clean ['a']).comps⟩ ⟨.dst, (clean ['a']).comps⟩ 0o644 7 false)
      renameFails).tmp = none ∧
    (after (atomicCopyFile ⟨.src, (clean ['a']).comps⟩ ⟨.dst, (clean ['a']).comps⟩ 0o644 7 false)
      renameFails).dstTree.get (clean ['a']).comps = some (.file ⟨0o600, 3, [9]⟩) := by
  have halone : renameFails.Alone := by
    intro ev hev d
    rcases List.mem_append.1 hev with hev | hev
    · rw [List.eq_of_mem_replicate hev]
      rfl
    · rw [List.mem_singleton.1 hev]
      rfl
  have hprior : ∀ i, Disk.lstat renameFails.disk ⟨.dst, (clean ['a']).comps⟩ = .ok i → i.kind = .file := by
    have hlstat : Disk.lstat renameFails.disk ⟨.dst, (clean ['a']).comps⟩ =
        .ok ⟨.file, 0o600, 1, 3⟩ := by decide +kernel
    intro i hi
    cases hlstat.symm.trans hi
    rfl
  have hopen : Disk.openFile renameFails.disk ⟨.src, (clean ['a']).comps⟩ =
      .ok (some ⟨0o644, 7, [1, 2]⟩) := by decide +kernel
  obtain ⟨hall, -, -⟩ := atomicCopyFile_allOrNothing renameFails ⟨.src, (clean ['a']).comps⟩
    (clean ['a']).comps 0o644 7 halone rfl hprior
  refine ⟨halone, rfl, by decide +kernel, by decide +kernel, hall.temp _ hopen ?_, ?_⟩
  · have hone : renameFails.faults = 1 := by decide +kernel
    omega
  · decide +kernel

end Dockerset.Netfin

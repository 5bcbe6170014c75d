import Dockerset.Netfin.StepInv

/-!
# The permission bits of mirrored directories

`syncDir` makes a directory with the permission bits of its source, and then
remembers these bits. A directory that is already there is left as it is, and its
bits are remembered all the same: it may have been made for a file below it, or the
source has changed its mind since. As long as no call comes by such a directory,
the state map has the bits of the backups (`Modes`), and the backups those of the
source.
-/

namespace Dockerset.Netfin
open Go Os Logic

/-- The destination has a directory at `q`, with these permission bits. -/
def HasMode (t : Tree) (q : Path) (perm : Perm) : Prop := ∃ b, t.get q = some (.dir b) ∧ b.perm = perm

theorem hasMode_iff_shape {t : Tree} {q : Path} {perm : Perm} :
    HasMode t q perm ↔ t.shape q = some (.dir ⟨perm, 0, 0⟩) := by
  constructor
  · rintro ⟨b, hb, rfl⟩
    simp [Tree.shape, hb, Node.shape]
  · exact Tree.get_dir_of_shape

theorem HasMode.unique {t : Tree} {q : Path} {perm perm' : Perm} (h : HasMode t q perm)
    (h' : HasMode t q perm') : perm = perm' := by
  obtain ⟨b, hb, rfl⟩ := h
  obtain ⟨b', hb', rfl⟩ := h'
  rw [hb] at hb'
  cases hb'
  rfl

/-- The bits remembered of a directory are those of its backup. -/
def ModeHolds (t : Tree) (q : Path) (st : PathState) : Prop := st.kind = .dir → HasMode t q st.mode

/-- The root is not remembered, and every remembered directory has the remembered bits. -/
abbrev Modes : Tree → StateMap → Prop := Vouched ModeHolds

theorem steadfast_modeHolds : Steadfast ModeHolds := by
  intro t t' q st hs h hk
  have hmode := h hk
  obtain ⟨b, hb, -⟩ := id hmode
  rw [hasMode_iff_shape] at hmode ⊢
  rw [hs (Tree.has_of_get hb), hmode]

/-- A backup directory at `q` has the bits of the source directory. -/
def SameMode (S : Tree) (q : Path) (t : Tree) : Prop :=
  ∀ a b, S.get q = some (.dir a) → t.get q = some (.dir b) → b.perm = a.perm

section

variable {S : Tree} {ex : Path → Bool} {T : Set Time} {U : Perm} {rm : Bool} {p q x : Path}
  {t₀ t t' : Tree} {m₀ m m' : StateMap} {l : List Path}

theorem MadeDirs.hasMode {perm : Perm} (h : Tree.MadeDirs T perm q t t')
    (hold : ∀ b, t.get q = some (.dir b) → b.perm = perm) : HasMode t' q perm := by
  rw [hasMode_iff_shape, h.shape]
  by_cases hhas : t.Has q
  · rw [if_neg fun hc => Tree.shape_ne_none.2 hhas hc.2]
    obtain ⟨b, hb⟩ := Tree.isDir_iff.1 (h.above q List.prefix_rfl hhas)
    exact hasMode_iff_shape.1 ⟨b, hb, hold b hb⟩
  · rw [if_pos ⟨List.prefix_rfl, not_not.1 (Tree.shape_ne_none.not.2 hhas)⟩]

/-- **The state map keeps the bits of the backups**, under the umask 0. -/
theorem stepInv_modes (T : Set Time) : StepInvAt 0 T SameMode Modes where
  touch ht hq hsame h := by
    refine ht.vouched steadfast_modeHolds hq h (fun a ha hmade _ => ?_) ?_ ?_
    · have hmask : ~~~(0 : Perm) = BitVec.allOnes 9 := rfl
      rw [hmask, BitVec.and_allOnes] at hmade
      exact MadeDirs.hasMode hmade fun b hb => hsame a b ha hb
    · intro f _ _ hk
      cases hk
    · intro f _ _ hk
      cases hk
  swept hs h := hs.vouched steadfast_modeHolds h

/-- A visit that removes nothing leaves the bits of a directory alone. -/
theorem Touch.dir_shape (h : Touch S T U rm q t m t' m') (hx : ¬ Clears S rm q x) (hd : t.IsDir x) :
    t'.shape x = t.shape x := by
  by_cases hne : x = q
  · subst hne
    cases h with
    | dirKnown | fileKnown | specialKept | fileMatched => rfl
    | dirMade _ h => rw [h.shape, if_neg fun hc => Tree.shape_ne_none.2 hd.has hc.2]
    | fileCopied _ h => exact absurd hd h.notDir
    | specialRemoved hS hrm => exact absurd (Touch.clears hS hrm List.prefix_rfl) hx
  · exact h.shape_frame hne hx hd.has

theorem Pass.dir_shape (h : Pass S ex T U false p t₀ m₀ l t m) (hd : t₀.IsDir x) :
    t.shape x = t₀.shape x := by
  induction h with
  | nil => rfl
  | @snoc l q t t' m m' _ _ _ _ ht ih =>
    have hdir : t.IsDir x := by
      rw [Tree.isDir_iff_shape, ih, ← Tree.isDir_iff_shape]
      exact hd
    have hclears : ¬ Clears S false q x := fun hc => Bool.false_ne_true hc.1
    rw [ht.dir_shape hclears hdir, ih]

end

/-- No directory that the call comes by has a backup with other bits. -/
def ModesMatch (c : Call) (r : Run Trees) : Prop :=
  ∀ q a b, c.Visits r q → r.src.get q = some (.dir a) → r.dst.get q = some (.dir b) → b.perm = a.perm

/-- A call that returns nil, no `SyncRel` on another spelling of the root, where no
directory it comes by has a backup with other bits. -/
structure ModeStep (c : Call) (r r' : Run Trees) : Prop where
  root : c.AvoidsRoot
  modes : ModesMatch c r
  run : c.exec.run r = .ok () r'

section

variable {r r' : Run Trees} {c : Call}

/-- What holds between the calls. -/
structure Run.Moded (r : Run Trees) : Prop where
  quiet : r.Quiet
  umask : r.world.umask = 0
  modes : Modes r.dst r.state

theorem Run.Moded.callEnd (h : r.Moded) (hend : CallEnd r r' c) (hmatch : ModesMatch c r) :
    r'.Moded where
  quiet := hend.follows.quiet h.quiet
  umask := hend.umask.trans h.umask
  modes := by
    have hinv : StepInvAt r.world.umask r.times SameMode Modes := by
      rw [h.umask]
      exact stepInv_modes _
    refine hinv.callEnd hend (fun q t hq ht a b ha hb => ?_) h.modes
    exact hmatch q a b hq ha (ht ▸ hb)

theorem ModeStep.keeps (h : ModeStep c r r') (hr : r.Moded) : r'.Moded :=
  hr.callEnd ((wp_call ⟨hr.quiet, hr.modes.root⟩ h.root).ok h.run) h.modes

/-- Every mirrored directory has in the destination the bits that it has in the
source, and they are what is remembered of it. -/
def ModesMirrored (r : Run Trees) : Prop :=
  ∀ q a, Reach r.walked r.syncer.excluder.excluded [] q → r.src.get q = some (.dir a) →
    ∃ b st, r.dst.get q = some (.dir b) ∧ b.perm = a.perm ∧ r.state.lookup q = some st ∧ st.mode = b.perm

theorem ReconcileEnd.modesMirrored_iff (h : ReconcileEnd r r') (hr : r.Moded) :
    ModesMirrored r' ↔ ModesMatch .reconcile r := by
  have hend : CallEnd r r' .reconcile := h
  constructor
  · obtain ⟨seen, t₁, m₁, t, n, m, hfull, hsw, rfl⟩ := h
    intro hm q a b hq ha hb
    obtain ⟨b', st, hb', hperm, -⟩ := hm q a hq ha
    -- neither the pass nor the sweep touches the bits of the old backup
    have hkeep := (hsw.keep q fun d hd => hfull.not_doomed hr.modes.root ((hfull.2 q).2 hq) hd).1
    have hpass := hfull.1.dir_shape (Tree.isDir_iff.2 ⟨b, hb⟩)
    have hold : HasMode r.dst q b.perm := ⟨b, hb, rfl⟩
    rw [hasMode_iff_shape, ← hpass, ← hkeep, ← hasMode_iff_shape] at hold
    exact hold.unique ⟨b', hb', hperm⟩
  · intro hmatch q a hq ha
    have hmodes := (hr.callEnd hend hmatch).modes
    have hstate : r'.state.lookup q = some (dirState a) := by
      obtain ⟨seen, t₁, m₁, t, n, m, -, -, rfl⟩ := id h
      have hq' : Reach r.walked r.syncer.excluder.excluded [] q := hq
      apply h.lookup_dir hr.modes.root hq'
      rw [hq'.walked_eq]
      exact ha
    obtain ⟨b, hb, hperm⟩ := hmodes.holds q _ hstate rfl
    exact ⟨b, dirState a, hb, hperm, hstate, hperm.symm⟩

end

/-- **The permission bits of directories**, after a history of calls that all
returned nil and came by no directory whose backup had other bits: the next
`Reconcile` that returns nil leaves every mirrored directory with the bits of its
source and the state map with those of the backups, exactly if it comes by no such
directory either. -/
theorem dir_modes_mirrored {w : World Trees} {patterns : List Str} {r r' : Run Trees}
    (hplan : w.plan = []) (htmp : w.tmp = none) (humask : w.umask = 0)
    (hist : History ModeStep (freshRun w patterns) r) (hok : reconcile.run r = .ok () r') :
    ModesMirrored r' ↔ ModesMatch .reconcile r := by
  have hr : r.Moded := by
    refine hist.inv Run.Moded ?_ (fun r S h => ⟨⟨h.quiet.plan, h.quiet.tmp, h.quiet.live⟩, h.umask, h.modes⟩)
      fun c r r' h hc => hc.keeps h
    exact ⟨⟨hplan, htmp, rfl⟩, humask, rfl, fun q st hq => by cases hq⟩
  exact ((wp_reconcile hr.quiet hr.modes.root).ok hok).modesMirrored_iff hr

/-- A source whose directory `b` holds the file `a` and has the given bits, and one
that has the directory `x` as well. -/
def sourceWith (perm : Perm) : Tree :=
  .ofList [([], .dir ⟨0o755, 4096, 1⟩), ([nameB], .dir ⟨perm, 4096, 1⟩),
    ([nameB, nameA], .file ⟨0o640, 7, [1, 2]⟩)]

def sourceWithX : Tree :=
  .ofList [([], .dir ⟨0o755, 4096, 1⟩), ([nameB], .dir ⟨0o700, 4096, 1⟩),
    ([nameB, nameA], .file ⟨0o640, 7, [1, 2]⟩), ([nameX], .dir ⟨0o750, 4096, 1⟩)]

/-- The directory `b` is the owner's alone; the destination is empty and the umask 0. -/
def privateWorld : World Trees :=
  { World.still (sourceWith 0o700) (.ofList [([], .dir ⟨0o755, 4096, 1⟩)]) (fun n => 100 + n) with
    umask := 0 }

theorem modesMatch_of_trees {c : Call} {r : Run Trees}
    (h : ∀ q n, r.src.get q = some n → n.kind = .dir → ∀ b ∈ r.dst.get q, b.info.perm = n.info.perm) :
    ModesMatch c r := by
  intro q a b _ ha hb
  exact h q _ ha rfl _ hb

/-- A directory is made after the first `Reconcile`, by `SyncRel`. -/
theorem dir_modes_mirrored_new : ∃ r r' : Run Trees, reconcile.run r = .ok () r' ∧
    r.dst.get [nameX] ≠ none ∧ ModesMirrored r' := by
  let r₁ := after reconcile (freshRun privateWorld [])
  let r₂ := r₁.edit sourceWithX
  let r₃ := after (syncRel ['x']) r₂
  have hc : clean ['x'] = ⟨false, 0, [nameX]⟩ := by decide +kernel
  have h₁ := ok_of_returns reconcile (freshRun privateWorld []) (by decide +kernel)
  have h₃ := ok_of_returns (syncRel ['x']) r₂ (by decide +kernel)
  have h₄ := ok_of_returns reconcile r₃ (by decide +kernel)
  have hist : History ModeStep (freshRun privateWorld []) r₃ := by
    refine History.call (r := r₂) (History.edit (r := r₁) ?_ sourceWithX) (.rel ['x']) ?_
    · exact History.call History.start .reconcile
        ⟨trivial, modesMatch_of_trees (by decide +kernel), h₁⟩
    · exact ⟨by simp [Call.AvoidsRoot, RootAlias, hc], modesMatch_of_trees (by decide +kernel), h₃⟩
  refine ⟨r₃, _, h₄, by decide +kernel, ?_⟩
  apply (dir_modes_mirrored (w := privateWorld) rfl rfl rfl hist h₄).2
  exact modesMatch_of_trees (by decide +kernel)

/-- The owner opens the directory `b` for others: the backup stays closed, and the
state map says it is open. -/
theorem chmod_not_mirrored : ∃ r₁ r₂ : Run Trees, ∃ a b st,
    reconcile.run (freshRun privateWorld []) = .ok () r₁ ∧
    reconcile.run (r₁.edit (sourceWith 0o755)) = .ok () r₂ ∧
    r₂.src.get [nameB] = some (.dir a) ∧ r₂.dst.get [nameB] = some (.dir b) ∧
    r₂.state.lookup [nameB] = some st ∧ a.perm = 0o755 ∧ st.mode = 0o755 ∧ b.perm = 0o700 := by
  let r₁ := after reconcile (freshRun privateWorld [])
  let r₂ := after reconcile (r₁.edit (sourceWith 0o755))
  have h₁ := ok_of_returns reconcile (freshRun privateWorld []) (by decide +kernel)
  have h₂ := ok_of_returns reconcile (r₁.edit (sourceWith 0o755)) (by decide +kernel)
  have hsrc : r₂.src.get [nameB] = some (.dir ⟨0o755, 4096, 1⟩) := by decide +kernel
  have hdst : HasMode r₂.dst [nameB] 0o700 := hasMode_iff_shape.2 (by decide +kernel)
  have hstate : r₂.state.lookup [nameB] = some ⟨.dir, 0o755, 0, 0⟩ := by decide +kernel
  obtain ⟨b, hb, hperm⟩ := hdst
  exact ⟨r₁, r₂, _, b, _, h₁, h₂, hsrc, hb, hstate, rfl, rfl, hperm⟩

end Dockerset.Netfin

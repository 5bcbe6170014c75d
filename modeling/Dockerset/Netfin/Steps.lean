import Dockerset.Netfin.SyncQuiet
import Dockerset.Os.Frame

/-!
# What the calls of the syncer keep

`SyncRel`, `SyncTree` and `Reconcile` are put together from a few operations on
one path each. What these operations keep, at the paths a call works on, the call
keeps, on any disk, whatever the others do and whichever of its system calls
fail (`Mirroring`, `Dropping`).

The common case is a property of the disk together with one of the syncer
(`HeldWith`, `HeldWithBy`): it is enough to know the calls on the disk at those paths and the
changes of the state map there (`MirrorKeeps`, `DropKeeps`).
-/

namespace Dockerset.Netfin
open Go Os Logic

variable {D α β : Type}

section Lift

variable {G : Run D → Prop} {x : Sys D α} {f : α → Sys D β}

theorem preserves_liftSys_attempt (h : Preserves G (liftSys x : SyncM D α)) :
    Preserves G (liftSys (attempt x) : SyncM D (Except Err α)) := by
  intro r hr
  have hx := h r hr
  rw [wp_liftSys_iff] at hx
  rw [wp_liftSys_iff, wp_attempt_iff]
  exact hx

theorem preserves_liftSys_bind (hx : Preserves G (liftSys x : SyncM D α))
    (hf : ∀ a, Preserves G (liftSys (f a) : SyncM D β)) :
    Preserves G (liftSys (x >>= f) : SyncM D β) := by
  intro r hr
  have hwp := hx r hr
  rw [wp_liftSys_iff] at hwp
  rw [wp_liftSys_iff, WP.bind_iff]
  refine hwp.mono (fun a w' hw' => ?_) fun _ _ h => h
  have hnext := hf a _ hw'
  rw [wp_liftSys_iff] at hnext
  exact hnext

theorem preserves_liftSys_pure (a : α) : Preserves G (liftSys (pure a) : SyncM D α) := fun _ h => h

theorem preserves_liftSys_throw (e : Err) : Preserves G (liftSys (throw e) : SyncM D α) := fun _ h => h

theorem preserves_getSyncer {f : Syncer → SyncM D α}
    (h : ∀ r, G r → WP (f r.syncer) (fun _ => G) (fun _ => G) r) : Preserves G (getSyncer >>= f) := h

theorem preserves_orFail {x : Except Err α} {f : α → SyncM D β}
    (h : ∀ a, x = .ok a → Preserves G (f a)) : Preserves G (orFail x >>= f) := by
  cases x with
  | ok a => exact h a rfl
  | error e => exact fun r hr => hr

end Lift

variable [Disk D]

/-! ## From the operations on one path to the calls -/

/-- `G` survives the calls that only look. -/
structure Looks (G : Run D → Prop) : Prop where
  query : ∀ {α : Type} (f : D → Except Errno α), Preserves G (liftSys (query f) : SyncM D α)
  poll : Preserves G (liftSys pollCtx : SyncM D Unit)
  seen : ∀ r l, G r → G { r with seen := l }

/-- Mirroring a path in `V` keeps `G`. -/
structure Mirroring (V : Path → Prop) (G : Run D → Prop) : Prop extends Looks G where
  below : ∀ p x, V p → V (p ++ [x])
  syncDir : ∀ p info, V p → Preserves G (syncDir p info)
  copyRel : ∀ p info, V p → Preserves G (copyRel p info)

/-- Dropping a known path in `V` keeps `G`. -/
structure Dropping (V : Path → Prop) (G : Run D → Prop) : Prop where
  known : ∀ p, V p → Preserves G (removeKnownBackupPath p ⟨.dst, p⟩)
  deleted : ∀ root seen rel, V root → Preserves G (removeDeletedPath root seen rel)

section Calls

variable {V : Path → Prop} {G P : Run D → Prop} {special : Path → SyncM D Unit} {s : Str}

theorem Looks.symlinkBelow (h : Looks G) (side : Side) (rest : Path) :
    ∀ cur, Preserves G (liftSys (symlinkBelow side cur rest) : SyncM D Bool) := by
  induction rest with
  | nil => exact fun _ => preserves_liftSys_pure _
  | cons x rest ih =>
    intro cur
    refine preserves_liftSys_bind (preserves_liftSys_attempt (h.query _)) fun looked => ?_
    cases looked with
    | error e =>
      dsimp only
      split
      · exact preserves_liftSys_pure _
      · exact preserves_liftSys_throw _
    | ok info =>
      dsimp only
      split
      · exact preserves_liftSys_pure _
      · exact ih _

theorem Mirroring.mirrorFn (h : Mirroring V G) (hspecial : ∀ p, V p → Preserves G (special p)) {p : Path}
    (hp : V p) (k : Kind) : Preserves G (mirrorFn special p (.ok k)) := by
  refine preserves_bind h.poll fun _ => ?_
  refine preserves_ite (fun _ => preserves_pure _) fun _ => ?_
  refine preserves_getSyncer fun r hr => ?_
  refine preserves_ite (fun _ => preserves_pure _) (fun _ => ?_) r hr
  refine preserves_bind (h.query _) fun info => ?_
  refine preserves_ite (fun _ => preserves_pure _) fun _ => ?_
  refine preserves_bind (preserves_modify fun r hr => h.seen r _ hr) fun _ => ?_
  refine preserves_ite (fun _ => ?_) fun _ => preserves_ite (fun _ => ?_) fun _ => ?_
  · exact preserves_bind (h.syncDir p info hp) fun _ => preserves_pure _
  · exact preserves_bind (hspecial p hp) fun _ => preserves_pure _
  · exact preserves_bind (h.copyRel p info hp) fun _ => preserves_pure _

/-- A walk whose visits keep `G` at the paths in `V`. -/
theorem Looks.walk (h : Looks G) {fn : WalkFn (Run D)} {root : Loc}
    (hbelow : ∀ p x, V p → V (p ++ [x])) (hcall : ∀ p k, V p → Preserves G (fn p (.ok k)))
    (hreport : ∀ p e, Preserves G (fn p (.error e))) (hroot : V root.path) :
    Preserves G (Os.walk fn root) := by
  have hlook : ∀ {β : Type} (g : D → Except Errno β),
      Preserves G (liftSys (attempt (Os.query g)) : SyncM D (Except Err β)) := fun g =>
    preserves_liftSys_attempt (h.query g)
  have hguided : Guided fn root.side G fun q _ => V q := by
    refine ⟨fun q k hq => hcall q k hq, hreport, fun q r hq hr => ?_⟩
    exact (hlook _ r hr).mono (fun _ _ hr' => ⟨hr', fun _ _ e _ => hbelow q e.1 hq⟩) fun _ _ hr' => hr'
  refine hguided.walk fun r hr => ?_
  exact (hlook _ r hr).mono (fun _ _ hr' => ⟨hr', fun _ _ => hroot⟩) fun _ _ hr' => hr'

/-- **A source walk** from a path in `V`. -/
theorem Mirroring.mirrorWalk (h : Mirroring V G) (hspecial : ∀ p, V p → Preserves G (special p)) {p : Path}
    (hp : V p) : Preserves G (mirrorWalk special p) := by
  refine preserves_bind (preserves_modify fun r hr => h.seen r _ hr) fun _ => ?_
  refine preserves_bind ?_ fun _ => fun r hr => hr
  exact h.walk h.below (fun q k hq => h.mirrorFn hspecial hq k) (fun _ e => preserves_throw e) hp

theorem Dropping.removeDeletedFromStateUnder (h : Dropping V G) {root : Path} (hroot : V root)
    (seen : List Path) : Preserves G (removeDeletedFromStateUnder root seen) := by
  refine preserves_getSyncer fun r hr => ?_
  exact preserves_forM (fun rel _ => h.deleted root seen rel hroot) r hr

/-- The common start of `SyncRel` and `SyncTree`, which goes on with `k` once the
source path has been looked at. -/
theorem wp_event (hP : Looks P) (hPG : ∀ r, P r → G r) {k : Loc → Info → SyncM D Unit}
    (hknown : (clean s).confined = true → ∀ r, P r →
      WP (removeKnownBackupPath (clean s).comps ⟨.dst, (clean s).comps⟩) (fun _ => G) (fun _ => G) r)
    (hk : (clean s).confined = true → ∀ info r, P r →
      WP (k ⟨.dst, (clean s).comps⟩ info) (fun _ => G) (fun _ => G) r) {r : Run D} (hr : P r) :
    WP (do
      if s = ['.'] then return
      let srcPath ← orFail (joinUnder .src (clean s).str)
      let dstPath ← orFail (joinUnder .dst (clean s).str)
      if (← getSyncer).excluder.excluded (clean s).comps then
        return ← removeKnownBackupPath (clean s).comps dstPath
      if ← liftSys (hasSymlinkInPath srcPath) then
        return ← removeKnownBackupPath (clean s).comps dstPath
      match ← liftSys (attempt (lstat srcPath)) with
      | .error e =>
        if e.isNotExist then removeKnownBackupPath (clean s).comps dstPath else throw e
      | .ok info => k dstPath info) (fun _ => G) (fun _ => G) r := by
  split
  · exact hPG r hr
  rw [joinUnder_clean, joinUnder_clean]
  split
  · next hc =>
    have hdrop := hknown hc
    simp only [orFail, pure_bind, getSyncer, WP.bind_iff, WP.get_iff, WP.pure_iff]
    split
    · exact hdrop r hr
    rw [WP.bind_iff]
    refine (hP.symlinkBelow _ _ _ r hr).mono (fun linked r₁ h₁ => ?_) fun _ _ h₁ => hPG _ h₁
    split
    · exact hdrop r₁ h₁
    rw [WP.bind_iff]
    refine (preserves_liftSys_attempt (hP.query _) r₁ h₁).mono (fun looked r₂ h₂ => ?_)
      fun _ _ h₂ => hPG _ h₂
    cases looked with
    | error e =>
      dsimp only
      split
      · exact hdrop r₂ h₂
      · exact hPG r₂ h₂
    | ok info => exact hk hc info r₂ h₂
  · exact hPG r hr

theorem Mirroring.syncRel (h : Mirroring V G) (hd : Dropping V G)
    (hV : (clean s).confined = true → V (clean s).comps) : Preserves G (syncRel s : SyncM D Unit) := by
  intro r hr
  refine wp_event h.toLooks (fun _ h => h) (fun hc => hd.known _ (hV hc)) (fun hc info => ?_) hr
  refine preserves_ite (fun _ => hd.known _ (hV hc)) fun _ => ?_
  refine preserves_ite (fun _ => h.syncDir _ info (hV hc)) fun _ => ?_
  exact preserves_ite (fun _ => hd.known _ (hV hc)) fun _ => h.copyRel _ info (hV hc)

/-- The cleaned path is cleaned once more by `SyncRel`. -/
theorem Mirroring.syncRel_clean (h : Mirroring V G) (hd : Dropping V G)
    (hV : (clean s).confined = true → V (clean s).comps) :
    Preserves G (Netfin.syncRel (clean s).str : SyncM D Unit) :=
  h.syncRel hd (by rw [clean_str]; exact hV)

theorem Mirroring.syncTree (h : Mirroring V G) (hd : Dropping V G)
    (hspecial : ∀ p, V p → Preserves G (removeSpecial p))
    (hV : (clean s).confined = true → V (clean s).comps) : Preserves G (syncTree s : SyncM D Unit) := by
  intro r hr
  refine wp_event h.toLooks (fun _ h => h) (fun hc => hd.known _ (hV hc)) (fun hc info => ?_) hr
  refine preserves_ite (fun _ => h.syncRel_clean hd hV) fun _ => ?_
  refine preserves_bind (h.mirrorWalk hspecial (hV hc)) fun seen => ?_
  exact hd.removeDeletedFromStateUnder (hV hc) seen

end Calls

/-! ## A property of the disk and one of the syncer -/

/-- `I` holds of the disk, and the others keep it; `J` holds of the syncer. -/
def HeldWith (I : D → Prop) (J : Syncer → Prop) (r : Run D) : Prop := Held I r.world ∧ J r.syncer

/-- `I` holds of the disk, `J` of the syncer, and the others' turns are all in `C`. -/
def HeldWithBy (C : Event D → Prop) (I : D → Prop) (J : Syncer → Prop) (r : Run D) : Prop :=
  HeldBy C I r.world ∧ J r.syncer

/-- Mirroring a path in `V` makes changes that keep `I` and `J`. -/
structure MirrorKeeps (V : Path → Prop) (I : D → Prop) (J : Syncer → Prop) : Prop where
  below : ∀ p x, V p → V (p ++ [x])
  writes : ∀ s p, V p → J s → s.dryRun = false → WritesKeep I ⟨.dst, p⟩
  remember : ∀ s p st, V p → J s → J (s.remember p st)

/-- Dropping a path in `V` makes changes that keep `I` and `J`. -/
structure DropKeeps (V : Path → Prop) (I : D → Prop) (J : Syncer → Prop) : Prop where
  removals : ∀ s p, V p → J s → s.dryRun = false → RemovalsKeep I ⟨.dst, p⟩
  forget : ∀ s p, V p → J s → J (s.forget p)
  forgetTree : ∀ s p, V p → J s → J (s.forgetTree p)

section HeldWith

variable {V : Path → Prop} {C : Event D → Prop} {I : D → Prop} {J : Syncer → Prop}
  (hC : ∀ ev, C ev → ∀ d, I d → I (ev.edit d))
include hC

theorem held_fsyncDir (l : Loc) : Preserves (HeldBy C I) (fsyncDir l : Sys D Unit) := by
  unfold fsyncDir
  refine preserves_bind (preserves_attempt (held_query hC _)) fun opened => ?_
  have hsync : Preserves (HeldBy C I) (attempt (syscall fun w : World D => .ok ((), w))) := by
    refine preserves_attempt (held_syscall hC fun w a w' h he => ?_)
    cases he
    exact h
  cases opened with
  | error e =>
    cases e with
    | errno n => cases n <;> first | exact preserves_pure _ | exact preserves_throw _
    | wrapped text cause => exact preserves_throw _
    | text t => exact preserves_throw _
    | canceled => exact preserves_throw _
  | ok _ =>
    refine preserves_bind hsync fun synced => ?_
    cases synced with
    | error e => cases e <;> exact preserves_throw _
    | ok _ => exact preserves_pure _

theorem held_atomicCopyFile (src : Loc) {dst : Loc} {dry : Bool} (hI : dry = false → WritesKeep I dst)
    (mode : Perm) (modTime : Time) :
    Preserves (HeldBy C I) (atomicCopyFile src dst mode modTime dry : Sys D Unit) := by
  cases dry with
  | true => exact preserves_pure _
  | false =>
    have hI := hI rfl
    refine preserves_bind (held_query hC _) fun h => ?_
    refine preserves_bind (held_mkdirParent hC hI _) fun _ => ?_
    refine preserves_bind (held_createTemp hC hI) fun _ => ?_
    refine held_deferring ?_ (held_removeTemp hC hI)
    refine preserves_bind (held_ioCopy hC h) fun _ => ?_
    refine preserves_bind (held_onTemp hC _) fun _ => ?_
    refine preserves_bind (held_onTemp hC _) fun _ => ?_
    refine preserves_bind (held_onTemp hC _) fun _ => ?_
    refine preserves_bind (held_onTemp hC _) fun _ => ?_
    exact preserves_bind (held_rename hC hI) fun _ => held_fsyncDir hC dst

theorem held_removePath {l : Loc} {dry : Bool} (hI : dry = false → RemovalsKeep I l) :
    Preserves (HeldBy C I) (removePath l dry : Sys D Unit) := by
  cases dry with
  | true => exact preserves_pure _
  | false => exact preserves_bind (held_removeAll hC (hI rfl)) fun _ => held_fsyncDir hC l

omit [Disk D] hC in
/-- A system program changes the world only. -/
theorem wp_heldWith_liftSys {x : Sys D α} (h : Preserves (HeldBy C I) x) {r : Run D} (hr : HeldWithBy C I J r) :
    WP (liftSys x) (fun _ r' => HeldWithBy C I J r' ∧ r'.syncer = r.syncer)
      (fun _ r' => HeldWithBy C I J r' ∧ r'.syncer = r.syncer) r := by
  rw [wp_liftSys_iff]
  exact (h _ hr.1).mono (fun _ _ hw => ⟨⟨hw, hr.2⟩, rfl⟩) fun _ _ hw => ⟨⟨hw, hr.2⟩, rfl⟩

omit [Disk D] hC in
theorem heldWith_liftSys {x : Sys D α} (h : Preserves (HeldBy C I) x) : Preserves (HeldWithBy C I J) (liftSys x) :=
  fun _ hr => (wp_heldWith_liftSys h hr).mono (fun _ _ h => h.1) fun _ _ h => h.1

omit [Disk D] hC in
theorem heldWith_modifySyncer {f : Syncer → Syncer} (hf : ∀ s, J s → J (f s)) :
    Preserves (HeldWithBy C I J) (modifySyncer f) :=
  preserves_modify fun _ hr => ⟨hr.1, hf _ hr.2⟩

omit [Disk D] in
theorem looks_heldWith : Looks (HeldWithBy C I J) where
  query f := heldWith_liftSys (held_query hC f)
  poll := heldWith_liftSys (held_pollCtx hC)
  seen _ _ hr := hr

section Mirror

variable (h : MirrorKeeps V I J)
include h

theorem MirrorKeeps.syncDir (p : Path) (info : Info) (hp : V p) :
    Preserves (HeldWithBy C I J) (syncDir p info) := by
  refine preserves_bind (preserves_getSyncer fun r hr => hr) fun matched => ?_
  refine preserves_ite (fun _ => preserves_pure _) fun _ => ?_
  refine preserves_bind ?_ fun _ => heldWith_modifySyncer fun s hs => h.remember s p _ hp hs
  refine preserves_orFail fun l hl => ?_
  cases (joinUnder_path .dst p).symm.trans hl
  refine preserves_getSyncer fun r hr => ?_
  cases hdry : r.syncer.dryRun with
  | true => exact hr
  | false => exact heldWith_liftSys (held_mkdirAll hC (h.writes _ p hp hr.2 hdry) _) r hr

theorem MirrorKeeps.copyRel (p : Path) (info : Info) (hp : V p) :
    Preserves (HeldWithBy C I J) (copyRel p info) := by
  have hremember : ∀ st, Preserves (HeldWithBy C I J) (rememberState (D := D) p st) := fun st =>
    heldWith_modifySyncer fun s hs => h.remember s p st hp hs
  have hmatch : ∀ l, Preserves (HeldBy C I) (fileMetadataMatches l info : Sys D Bool) := by
    intro l
    refine preserves_bind (preserves_attempt (held_query hC _)) fun x => ?_
    cases x <;> exact preserves_pure _
  refine preserves_bind (preserves_getSyncer fun r hr => hr) fun matched => ?_
  refine preserves_ite (fun _ => preserves_pure _) fun _ => ?_
  refine preserves_orFail fun src _ => ?_
  refine preserves_orFail fun dst hdst => ?_
  cases (joinUnder_path .dst p).symm.trans hdst
  refine preserves_bind (heldWith_liftSys (hmatch _)) fun same => ?_
  refine preserves_ite (fun _ => ?_) fun _ => ?_
  · exact preserves_bind (hremember _) fun _ => preserves_pure _
  · refine preserves_getSyncer fun r hr => ?_
    have hcopy := held_atomicCopyFile hC src (h.writes _ p hp hr.2) info.perm info.mtime
    exact preserves_bind (heldWith_liftSys hcopy) (fun _ => hremember _) r hr

theorem MirrorKeeps.mirrors : Mirroring V (HeldWithBy C I J) where
  toLooks := looks_heldWith hC
  below := h.below
  syncDir := h.syncDir hC
  copyRel := h.copyRel hC

end Mirror

section Drop

variable (h : DropKeeps V I J)
include h

theorem DropKeeps.removePath {p : Path} (hp : V p) :
    Preserves (HeldWithBy C I J) (do
      liftSys (removePath ⟨.dst, p⟩ (← getSyncer).dryRun)
      forgetStateTree p : SyncM D Unit) := by
  refine preserves_getSyncer fun r hr => ?_
  have hremove := held_removePath hC (h.removals _ p hp hr.2)
  exact preserves_bind (heldWith_liftSys hremove)
    (fun _ => heldWith_modifySyncer fun s hs => h.forgetTree s p hp hs) r hr

theorem DropKeeps.removeKnownBackupPath (p : Path) (hp : V p) :
    Preserves (HeldWithBy C I J) (removeKnownBackupPath p ⟨.dst, p⟩) := by
  refine preserves_getSyncer fun r hr => ?_
  exact preserves_ite (fun _ => preserves_pure _) (fun _ => h.removePath hC hp) r hr

theorem DropKeeps.removeSpecial (p : Path) (hp : V p) :
    Preserves (HeldWithBy C I J) (removeSpecial p : SyncM D Unit) := by
  refine preserves_orFail fun l hl => ?_
  cases (joinUnder_path .dst p).symm.trans hl
  exact h.removePath hC hp

theorem DropKeeps.removeDeletedPath (hbelow : ∀ p q, V p → p <+: q → V q) (root : Path)
    (seen : List Path) (rel : Path) (hroot : V root) :
    Preserves (HeldWithBy C I J) (removeDeletedPath root seen rel) := by
  refine preserves_ite (fun _ => preserves_pure _) fun hin => ?_
  refine preserves_ite (fun _ => preserves_pure _) fun _ => ?_
  refine preserves_bind (preserves_getSyncer fun r hr => hr) fun known => ?_
  refine preserves_ite (fun _ => preserves_pure _) fun _ => ?_
  refine preserves_orFail fun l hl => ?_
  cases (joinUnder_path .dst rel).symm.trans hl
  exact h.removePath hC (hbelow root rel hroot (not_not.1 (mt outside_iff.2 hin)))

theorem DropKeeps.removeDeletedByWalkingDestination (hall : ∀ p, V p) (seen : List Path) :
    Preserves (HeldWithBy C I J) (removeDeletedByWalkingDestination seen : SyncM D Unit) := by
  refine preserves_getSyncer fun r hr => ?_
  cases hdry : r.syncer.dryRun with
  | true => exact hr
  | false =>
    -- the mode does not change while the walk goes on
    have hremovals : ∀ p, RemovalsKeep I ⟨.dst, p⟩ := fun p => h.removals _ p (hall p) hr.2 hdry
    refine (looks_heldWith hC).walk (V := fun _ => True) (fun _ _ _ => trivial) (fun p k _ => ?_)
      (fun _ e => preserves_throw e) trivial r hr
    refine preserves_ite (fun _ => preserves_pure _) fun _ => ?_
    refine preserves_ite (fun _ => preserves_pure _) fun _ => ?_
    refine preserves_ite (fun _ => ?_) fun _ => ?_
    · refine preserves_bind (heldWith_liftSys (held_removeAll hC (hremovals p))) fun _ => ?_
      refine preserves_bind ?_ fun _ => preserves_pure _
      exact heldWith_modifySyncer fun s hs => h.forgetTree s p (hall p) hs
    · refine preserves_bind (heldWith_liftSys (held_remove hC (hremovals p))) fun _ => ?_
      refine preserves_bind ?_ fun _ => preserves_pure _
      exact heldWith_modifySyncer fun s hs => h.forget s p (hall p) hs

theorem DropKeeps.drops (hbelow : ∀ p q, V p → p <+: q → V q) : Dropping V (HeldWithBy C I J) where
  known := h.removeKnownBackupPath hC
  deleted := h.removeDeletedPath hC hbelow

end Drop

/-- **`Reconcile`** works on every path. -/
theorem heldWith_reconcile (h : MirrorKeeps V I J) (hd : DropKeeps V I J) (hall : ∀ p, V p)
    (hdone : ∀ s, J s → J { s with reconciled := true }) :
    Preserves (HeldWithBy C I J) (reconcile : SyncM D Unit) := by
  refine preserves_getSyncer fun r hr => ?_
  refine preserves_bind ((h.mirrors hC).mirrorWalk (fun _ _ => preserves_pure _) (hall [])) (fun seen => ?_) r hr
  refine preserves_ite (fun _ => ?_) fun _ => ?_
  · exact preserves_bind (hd.removeDeletedByWalkingDestination hC hall seen) fun _ => heldWith_modifySyncer hdone
  · have hlight := (hd.drops hC fun _ q _ _ => hall q).removeDeletedFromStateUnder (hall []) seen
    exact preserves_bind hlight fun _ => heldWith_modifySyncer hdone

end HeldWith

end Dockerset.Netfin

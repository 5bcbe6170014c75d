import Dockerset.Netfin.MirrorWalk
import Dockerset.Netfin.Sweep

/-!
# The calls of the syncer in a quiet world

`Reconcile` is a pass over the source followed by a sweep; `SyncRel` obeys what
the source says about one path; `SyncTree` is a pass and a sweep below one
directory. Each call is given with everything it can do when it returns and
when it fails.
-/

namespace Dockerset.Netfin
open Go Os Logic

theorem Touch.lookup_root {S : Tree} {T : Set Time} {U : Perm} {rm : Bool} {q : Path} {t t' : Tree}
    {m m' : StateMap} (h : Touch S T U rm q t m t' m') (hq : q ≠ []) (hm : m.lookup [] = none) :
    m'.lookup [] = none := by
  cases h with
  | dirKnown | fileKnown | specialKept => exact hm
  | dirMade | fileMatched | fileCopied => rw [AList.lookup_insert_eq_ite, if_neg (Ne.symm hq), hm]
  | specialRemoved =>
    rw [lookup_prune hq]
    split
    · rfl
    · exact hm

theorem Pass.lookup_root {S : Tree} {ex : Path → Bool} {T : Set Time} {U : Perm} {rm : Bool} {p : Path}
    {t₀ t : Tree} {m₀ m : StateMap} {l : List Path} (h : Pass S ex T U rm p t₀ m₀ l t m)
    (hm : m₀.lookup [] = none) : m.lookup [] = none := by
  induction h with
  | nil => exact hm
  | snoc _ hq _ _ ht ih => exact ht.lookup_root hq.ne_root ih

/-- The first successful `Reconcile` has been. -/
def Run.finish (r : Run Trees) : Run Trees := { r with syncer := { r.syncer with reconciled := true } }

/-- What `Reconcile` removes after the pass. The deep walk stops at a destination
that is a link. -/
def Doomed (r : Run Trees) (seen : List Path) (t : Tree) (m : StateMap) (d : Path) : Prop :=
  if r.syncer.reconciled then Unseen m [] seen d
  else r.world.disk.dst.link = none ∧ Stray [] seen t d

/-- `Reconcile` has returned nil. -/
def ReconcileEnd (r r' : Run Trees) : Prop :=
  ∃ seen t₁ m₁ t n m, FullPass r.walked false [] r seen t₁ m₁ ∧
    Swept r.times (Doomed r seen t₁ m₁) t₁ t m₁ m ∧ r' = ((r.move t n m).seeing seen).finish

/-- `Reconcile` has failed: in its pass, or in its sweep. -/
def ReconcileStuck (r r' : Run Trees) : Prop :=
  Broken r.walked false [] r r' ∨ ∃ seen t₁ m₁ A t n m, FullPass r.walked false [] r seen t₁ m₁ ∧
    Swept r.times A t₁ t m₁ m ∧ r' = (r.move t n m).seeing seen ∧
    if r.syncer.reconciled then (∀ d, A d → d ≠ []) ∧ ∃ d, m.lookup d ≠ none ∧ ¬ t.Has d
    else ¬ t₁.Has [] ∨ ∃ d, t₁.IsDir d ∧ d.length = r.world.pathMax

section

variable {r : Run Trees}

theorem wp_deepSweep (hr : r.Quiet) {seen : List Path} :
    WP (removeDeletedByWalkingDestination seen)
      (fun _ r' => ∃ t n m, r' = r.move t n m ∧ Swept r.times
        (fun d => r.world.disk.dst.link = none ∧ Stray [] seen r.dst d) r.dst t r.state m)
      (fun _ r' => ∃ A t n m, r' = r.move t n m ∧ Swept r.times A r.dst t r.state m ∧
        (¬ r.dst.Has [] ∨ ∃ d, r.dst.IsDir d ∧ d.length = r.world.pathMax)) r := by
  cases hlink : r.world.disk.dst.link with
  | some a =>
    refine wp_removeDeletedByWalkingDestination_link hr hlink ?_
    exact ⟨r.dst, 0, r.state, rfl, .refl _ _ _ (by simp)⟩
  | none =>
    refine (wp_removeDeletedByWalkingDestination hr hlink).mono ?_ ?_
    · rintro _ _ ⟨-, t, n, m, rfl, hsw⟩
      exact ⟨t, n, m, rfl, hsw.congr fun d => by simp⟩
    · rintro _ _ (⟨hno, rfl⟩ | ⟨⟨A, t, n, m, rfl, hsw⟩, d, hd, -, hlen⟩)
      · exact ⟨fun _ => False, _, 0, _, rfl, .refl _ _ _ fun _ => id, .inl hno⟩
      · exact ⟨A, t, n, m, rfl, hsw, .inr ⟨d, hd, by simpa using hlen⟩⟩

theorem wp_sweep_finish {sweep : SyncM Trees Unit} {seen : List Path} {t₁ : Tree} {n₁ : Nat}
    {m₁ : StateMap} {A₀ : Path → Prop} {C : (Path → Prop) → Tree → StateMap → Prop}
    (hpass : FullPass r.walked false [] r seen t₁ m₁) (hdoomed : A₀ = Doomed r seen t₁ m₁)
    (hcause : ∀ A t m, C A t m →
      if r.syncer.reconciled then (∀ d, A d → d ≠ []) ∧ ∃ d, m.lookup d ≠ none ∧ ¬ t.Has d
      else ¬ t₁.Has [] ∨ ∃ d, t₁.IsDir d ∧ d.length = r.world.pathMax)
    (hsweep : WP sweep
      (fun _ r' => ∃ t n m, r' = ((r.move t₁ n₁ m₁).seeing seen).move t n m ∧
        Swept r.times A₀ t₁ t m₁ m)
      (fun _ r' => ∃ A t n m, r' = ((r.move t₁ n₁ m₁).seeing seen).move t n m ∧
        Swept r.times A t₁ t m₁ m ∧ C A t m) ((r.move t₁ n₁ m₁).seeing seen)) :
    WP sweep (fun _ r' => ReconcileEnd r r'.finish) (fun _ => ReconcileStuck r)
      ((r.move t₁ n₁ m₁).seeing seen) := by
  refine hsweep.mono ?_ ?_
  · rintro _ _ ⟨t, n, m, rfl, hsw⟩
    refine ⟨seen, t₁, m₁, t, n₁ + n, m, hpass, hdoomed ▸ hsw, ?_⟩
    simp [Run.finish, Run.move, World.setDst_setDst]
  · rintro _ _ ⟨A, t, n, m, rfl, hsw, hC⟩
    refine .inr ⟨seen, t₁, m₁, A, t, n₁ + n, m, hpass, hsw, ?_, hcause A t m hC⟩
    simp [Run.move, World.setDst_setDst]

/-- **`Reconcile`.** -/
theorem wp_reconcile (hr : r.Quiet) (hroot : r.state.lookup [] = none) :
    WP reconcile (fun _ => ReconcileEnd r) (fun _ => ReconcileStuck r) r := by
  simp only [reconcile, getSyncer, WP.bind_iff, WP.get_iff, WP.pure_iff]
  refine (wp_mirrorWalk_root hr).mono ?_ fun _ _ h => .inl h
  rintro seen _ ⟨t₁, n₁, m₁, rfl, hpass⟩
  have hr₁ : ((r.move t₁ n₁ m₁).seeing seen).Quiet := ⟨hr.plan, hr.tmp, hr.live⟩
  cases hrec : r.syncer.reconciled with
  | false =>
    simp only [Bool.not_false, if_true, WP.bind_iff, wp_modifySyncer_iff]
    refine wp_sweep_finish hpass ?_ (fun A t m h => ?_) (wp_deepSweep hr₁)
    · funext d
      simp only [Doomed, hrec]
      rfl
    · rw [hrec]
      exact h
  | true =>
    simp only [Bool.not_true, Bool.false_eq_true, if_false, removeDeletedFromState, WP.bind_iff,
      wp_modifySyncer_iff]
    have hlookup := hpass.1.lookup_root hroot
    refine wp_sweep_finish hpass ?_ (fun A t m h => ?_) (wp_removeDeletedFromStateUnder hr₁ hlookup)
    · funext d
      simp only [Doomed, hrec]
      rfl
    · rw [hrec]
      exact h

end

/-! ## `SyncRel` -/

/-- What the source says about one path. -/
inductive Order where
  | drop
  | dir (info : Info)
  | file (info : Info)
  | fail (e : Errno)
deriving DecidableEq

/-- The decision of `SyncRel`: a path that is excluded, missing, a link or a
special file has no backup; an ancestor that is a file is an error. A link above
the path makes it missing. -/
def orderFor (S : Tree) (ex : Path → Bool) (p : Path) : Order :=
  if ex p then .drop
  else
    match S.get p with
    | some (.dir a) => .dir (a.info .dir)
    | some (.file f) => .file f.info
    | some _ => .drop
    | none => if S.missing p = .ENOENT then .drop else .fail (S.missing p)

/-- Doing what the source says. -/
def obey (p : Path) : Order → SyncM Trees Unit
  | .drop => removeKnownBackupPath p ⟨.dst, p⟩
  | .dir info => syncDir p info
  | .file info => copyRel p info
  | .fail e => throw (.errno e)

section

variable {r : Run Trees} {s : Str} {p : Path}

/-- The string names the path `p` below the root. -/
def Names (s : Str) (p : Path) : Prop := s ≠ ['.'] ∧ clean s = ⟨false, 0, p⟩ ∧ p ≠ []

theorem names_str {p : Path} (hp : p ≠ []) : Names p.str p :=
  ⟨fun h => hp (Path.str_eq_dot.1 h), clean_path p, hp⟩

theorem orFail_joinUnder_clean {σ : Type} {side : Side} (hc : clean s = ⟨false, 0, p⟩) :
    (orFail (joinUnder side (clean s).str) : EStateM Err σ Loc) = pure ⟨side, p⟩ := by
  rw [joinUnder_clean, hc]
  rfl

/-- What `Lstat` of a source path tells the callers. -/
def seenAs (S : Tree) (p : Path) : Except Err Info :=
  match S.lstat p with
  | .ok info => .ok info
  | .error e => .error (.errno e)

/-- The part that `SyncRel` and `SyncTree` share: excluded paths and paths with a
link in them go to `drop`, and `go` decides on what `Lstat` says. The look at the
components of the path makes no difference, as `go` would drop a link as well. -/
theorem lookAt_run (hr : r.Quiet) (hp : p ≠ []) {drop : SyncM Trees Unit}
    {go : Except Err Info → SyncM Trees Unit}
    (hlink : ∀ a, r.src.get p = some (.symlink a) → (go (.ok (a.info .symlink))).run r = drop.run r)
    (hnone : (go (.error (.errno .ENOENT))).run r = drop.run r)
    (hfile : (go (.error (.errno .ENOTDIR))).run r = .error (.errno .ENOTDIR) r) :
    (do
      if (← getSyncer).excluder.excluded p then drop
      else do
        if ← liftSys (hasSymlinkInPath ⟨.src, p⟩) then drop
        else go (← liftSys (attempt (lstat ⟨.src, p⟩)))).run r =
      if r.syncer.excluder.excluded p then drop.run r else (go (seenAs r.src p)).run r := by
  have hget : (getSyncer : SyncM Trees Syncer).run r = .ok r.syncer r := rfl
  rw [EStateM.run_bind, hget]
  dsimp only
  cases r.syncer.excluder.excluded p with
  | true => rfl
  | false =>
    simp only [Bool.false_eq_true, if_false]
    rw [EStateM.run_bind]
    have hsome : ∀ {node}, r.src.get p = some node → seenAs r.src p = .ok node.info := fun h => by
      rw [seenAs, Tree.lstat_of_get h]
    have hgone : r.src.get p = none → seenAs r.src p = .error (.errno (r.src.missing p)) := fun h => by
      rw [seenAs, Tree.lstat_of_none h]
    rcases hasSymlinkInPath_run (w := r.world) (p := p) hr.plan with ⟨hrun, h⟩ | hrun | ⟨hrun, hg, hm⟩
    · rw [liftSys_ok (s := r) hrun]
      change drop.run r = _
      rcases h with hk | ⟨hg, hm⟩
      · obtain ⟨node, hg, hk⟩ := Option.map_eq_some_iff.1 hk
        cases node with
        | symlink a => rw [hsome hg, ← hlink a hg]; rfl
        | _ => cases hk
      · rw [hgone hg, hm, hnone]
    · rw [liftSys_ok (s := r) hrun]
      change (liftSys (attempt (lstat ⟨.src, p⟩)) >>= go).run r = _
      rw [EStateM.run_bind]
      cases hg : r.src.get p with
      | some node =>
        rw [liftSys_ok (s := r) (attempt_ok (lstat_src_ok hr.plan (.inl hp) hg)), hsome hg]
        rfl
      | none =>
        rw [liftSys_ok (s := r) (attempt_error (lstat_src_error hr.plan (.inl hp) hg)), hgone hg]
        rfl
    · rw [liftSys_error (s := r) hrun, hgone hg, hm, hfile]
      rfl

/-- **`SyncRel`** of a path below the root. -/
theorem syncRel_run (hr : r.Quiet) (hs : Names s p) :
    (syncRel s).run r = (obey p (orderFor r.src r.syncer.excluder.excluded p)).run r := by
  obtain ⟨hdot, hc, hp⟩ := hs
  rw [syncRel, if_neg hdot]
  simp only [orFail_joinUnder_clean hc, pure_bind]
  rw [hc]
  refine (lookAt_run hr hp ?_ ?_ ?_).trans ?_
  · exact fun a _ => rfl
  · rfl
  · rfl
  · cases hex : r.syncer.excluder.excluded p with
    | true => simp [orderFor, hex, obey]
    | false =>
      simp only [orderFor, hex, Bool.false_eq_true, if_false, seenAs]
      cases hg : r.src.get p with
      | some node =>
        rw [Tree.lstat_of_get hg]
        cases node <;> rfl
      | none =>
        rw [Tree.lstat_of_none hg]
        rcases Tree.missing_eq (t := r.src) (p := p) with hm | hm <;> rw [hm] <;> rfl

/-- The backup at `p` is gone, or nothing was known of it. -/
def Dropped (p : Path) (r r' : Run Trees) : Prop :=
  ((∀ q, p <+: q → r.state.lookup q = none) ∧ r' = r) ∨
    ((∃ q, p <+: q ∧ r.state.lookup q ≠ none) ∧
      ∃ t n m, r' = r.move t n m ∧ Swept r.times (fun d => d = p) r.dst t r.state m)

/-- `SyncRel` has returned nil. -/
def RelEnd (p : Path) (r r' : Run Trees) : Prop :=
  match orderFor r.src r.syncer.excluder.excluded p with
  | .drop => Dropped p r r'
  | .fail _ => False
  | _ => Touched false p r r'

/-- `SyncRel` has failed: directories may have been added. -/
def RelStuck (r r' : Run Trees) : Prop := ∃ t n, Grown r.dst t ∧ r' = r.move t n r.state

theorem wp_drop (hr : r.Quiet) (hp : p ≠ []) :
    WP (removeKnownBackupPath p ⟨.dst, p⟩) (fun _ => Dropped p r) (fun _ r' => r' = r) r := by
  refine wp_removeKnownBackupPath hr hp (fun hno => .inl ⟨fun q hq => ?_, rfl⟩) (fun t q hq hne ht => .inr ?_)
    fun e _ _ => rfl
  · exact hno q ((inStateTree_iff hp).2 hq)
  · exact ⟨⟨q, (inStateTree_iff hp).1 hq, hne⟩, t, 1, _, rfl, .of_pruned hp ht⟩

theorem orderFor_dir {S : Tree} {ex : Path → Bool} {info : Info} (h : orderFor S ex p = .dir info) :
    ex p = false ∧ ∃ a, S.get p = some (.dir a) ∧ info = a.info .dir := by
  unfold orderFor at h
  split at h
  · cases h
  · next hex =>
    refine ⟨by simpa using hex, ?_⟩
    split at h
    · next a ha => exact ⟨a, ha, by cases h; rfl⟩
    · cases h
    · cases h
    · split at h <;> cases h

theorem orderFor_file {S : Tree} {ex : Path → Bool} {info : Info} (h : orderFor S ex p = .file info) :
    ex p = false ∧ ∃ f, S.get p = some (.file f) ∧ info = f.info := by
  unfold orderFor at h
  split at h
  · cases h
  · next hex =>
    refine ⟨by simpa using hex, ?_⟩
    split at h
    · cases h
    · next f hf => exact ⟨f, hf, by cases h; rfl⟩
    · cases h
    · split at h <;> cases h

theorem wp_obey (hr : r.Quiet) (hp : p ≠ []) :
    WP (obey p (orderFor r.src r.syncer.excluder.excluded p)) (fun _ => RelEnd p r)
      (fun _ => RelStuck r) r := by
  unfold RelEnd
  cases ho : orderFor r.src r.syncer.excluder.excluded p with
  | drop =>
    apply (wp_drop hr hp).mono (fun _ _ h => h)
    rintro _ _ rfl
    exact ⟨_, 0, .refl _, rfl⟩
  | dir info =>
    obtain ⟨-, a, hg, rfl⟩ := orderFor_dir ho
    refine (wp_touch_dir hr hg).mono (fun _ _ h => h) fun _ _ h => ?_
    obtain ⟨-, t, n, ht, rfl⟩ := h
    exact ⟨t, n, ht, rfl⟩
  | file info =>
    obtain ⟨-, f, hg, rfl⟩ := orderFor_file ho
    refine (wp_touch_file hr hp hg).mono (fun _ _ h => h) fun _ _ h => ?_
    obtain ⟨-, t, n, ht, rfl⟩ := h
    exact ⟨t, n, ht, rfl⟩
  | fail e => exact ⟨r.dst, 0, .refl _, rfl⟩

theorem wp_syncRel (hr : r.Quiet) (hs : Names s p) :
    WP (syncRel s) (fun _ => RelEnd p r) (fun _ => RelStuck r) r :=
  (WP.congr (syncRel_run hr hs)).2 (wp_obey hr hs.2.2)

/-! ## `SyncTree` -/

/-- **`SyncTree`** of a path below the root: anything but a directory is left to
`SyncRel`. -/
theorem syncTree_run (hr : r.Quiet) (hs : Names s p) :
    (syncTree s).run r =
      match orderFor r.src r.syncer.excluder.excluded p with
      | .dir _ => (do
          let seen ← mirrorWalk removeSpecial p
          removeDeletedFromStateUnder p seen).run r
      | o => (obey p o).run r := by
  obtain ⟨hdot, hc, hp⟩ := hs
  have hstr : (Cleaned.mk false 0 p).str = p.str := Cleaned.str_of_confined rfl
  have hrel := syncRel_run hr (names_str hp)
  rw [syncTree, if_neg hdot]
  simp only [orFail_joinUnder_clean hc, pure_bind]
  rw [hc]
  refine (lookAt_run hr hp ?_ ?_ ?_).trans ?_
  · intro a hg
    change (syncRel (Cleaned.mk false 0 p).str).run r = _
    rw [hstr, hrel]
    simp only [orderFor, hg]
    split <;> rfl
  · rfl
  · rfl
  · cases hex : r.syncer.excluder.excluded p with
    | true => simp [orderFor, hex, obey]
    | false =>
      simp only [Bool.false_eq_true, if_false, seenAs]
      cases hg : r.src.get p with
      | some node =>
        rw [Tree.lstat_of_get hg]
        cases node with
        | dir a => simp only [orderFor, hex, hg, Bool.false_eq_true, if_false]; rfl
        | _ =>
          change (syncRel (Cleaned.mk false 0 p).str).run r = _
          rw [hstr, hrel]
          simp only [orderFor, hex, hg, Bool.false_eq_true, if_false]
      | none =>
        rw [Tree.lstat_of_none hg]
        simp only [orderFor, hex, hg, Bool.false_eq_true, if_false]
        rcases Tree.missing_eq (t := r.src) (p := p) with hm | hm <;> rw [hm] <;> rfl

/-- A pass over a directory of the source, and the sweep below it. -/
def TreePass (p : Path) (r r' : Run Trees) : Prop :=
  ∃ seen t₁ m₁ t n m, FullPass r.src true p r seen t₁ m₁ ∧
    Swept r.times (Unseen m₁ p seen) t₁ t m₁ m ∧ r' = (r.move t n m).seeing seen

/-- `SyncTree` has returned nil. -/
def TreeEnd (p : Path) (r r' : Run Trees) : Prop :=
  match orderFor r.src r.syncer.excluder.excluded p with
  | .dir _ => TreePass p r r'
  | _ => RelEnd p r r'

/-- `SyncTree` has failed: in its pass, in its sweep, or as `SyncRel` does. -/
def TreeStuck (p : Path) (r r' : Run Trees) : Prop :=
  Broken r.src true p r r' ∨ RelStuck r r' ∨ ∃ seen t₁ m₁ A t n m, FullPass r.src true p r seen t₁ m₁ ∧
    Swept r.times A t₁ t m₁ m ∧ r' = (r.move t n m).seeing seen

theorem wp_treePass (hr : r.Quiet) (hlink : p ≠ [] ∨ r.world.disk.src.link = none) (hp : r.src.Has p)
    (hroot : r.state.lookup [] = none) :
    WP (do
      let seen ← mirrorWalk removeSpecial p
      removeDeletedFromStateUnder p seen) (fun _ => TreePass p r) (fun _ => TreeStuck p r) r := by
  change WP (mirrorWalk (onSpecial true) p >>= removeDeletedFromStateUnder p) _ _ r
  rw [WP.bind_iff]
  refine (wp_mirrorWalk true hr hlink hp).mono ?_ fun _ _ h => .inl h
  rintro seen _ ⟨t₁, n₁, m₁, rfl, hpass⟩
  have hr₁ : ((r.move t₁ n₁ m₁).seeing seen).Quiet := ⟨hr.plan, hr.tmp, hr.live⟩
  refine (wp_removeDeletedFromStateUnder hr₁ (hpass.1.lookup_root hroot)).mono ?_ ?_
  · rintro _ _ ⟨t, n, m, rfl, hsw⟩
    exact ⟨seen, t₁, m₁, t, n₁ + n, m, hpass, hsw, by simp [Run.move, World.setDst_setDst]⟩
  · rintro _ _ ⟨A, t, n, m, rfl, hsw, -⟩
    exact .inr (.inr ⟨seen, t₁, m₁, A, t, n₁ + n, m, hpass, hsw,
      by simp [Run.move, World.setDst_setDst]⟩)

theorem wp_syncTree (hr : r.Quiet) (hs : Names s p) (hroot : r.state.lookup [] = none) :
    WP (syncTree s) (fun _ => TreeEnd p r) (fun _ => TreeStuck p r) r := by
  have hp := hs.2.2
  rw [WP, syncTree_run hr hs]
  unfold TreeEnd
  cases ho : orderFor r.src r.syncer.excluder.excluded p with
  | dir info =>
    obtain ⟨-, a, hg, -⟩ := orderFor_dir ho
    exact wp_treePass hr (.inl hp) (Tree.has_of_get hg) hroot
  | _ =>
    have h := (wp_obey hr hp).mono (fun _ _ h => h) fun _ r' h => (Or.inr (.inl h) : TreeStuck p r r')
    rw [ho] at h
    exact h

end

/-! ## Between two calls -/

/-- The source has become `S`. -/
def Run.edit (r : Run Trees) (S : Tree) : Run Trees :=
  { r with world := { r.world with disk := { r.world.disk with src := { r.world.disk.src with tree := S } } } }

/-- A syncer before or after a call. -/
structure Run.Idle (r : Run Trees) : Prop extends r.Quiet where
  rootState : r.state.lookup [] = none

section

variable {r : Run Trees} {S t : Tree} {n : Nat} {m : StateMap} {l : List Path}

@[simp] theorem Run.edit_src : (r.edit S).src = S := rfl
@[simp] theorem Run.edit_dst : (r.edit S).dst = r.dst := rfl
@[simp] theorem Run.edit_state : (r.edit S).state = r.state := rfl
@[simp] theorem Run.edit_times : (r.edit S).times = r.times := rfl

theorem Run.Idle.edit (h : r.Idle) : (r.edit S).Idle := ⟨⟨h.plan, h.tmp, h.live⟩, h.rootState⟩

theorem Run.Idle.move (h : r.Idle) (hm : m.lookup [] = none) : (r.move t n m).Idle :=
  ⟨h.toQuiet.move, hm⟩

theorem Run.Idle.seeing (h : r.Idle) : (r.seeing l).Idle := ⟨⟨h.plan, h.tmp, h.live⟩, h.rootState⟩

theorem Run.Idle.finish (h : r.Idle) : r.finish.Idle := ⟨⟨h.plan, h.tmp, h.live⟩, h.rootState⟩

theorem Run.Idle.reconcile (h : r.Idle) :
    WP reconcile (fun _ => ReconcileEnd r) (fun _ => ReconcileStuck r) r :=
  wp_reconcile h.toQuiet h.rootState

end

end Dockerset.Netfin

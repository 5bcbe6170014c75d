import Dockerset.Netfin.Unmirrorable

/-!
# Reconciling twice

A `Reconcile` that returns nil leaves the state map in step with the source: all
that the walk comes by is remembered as it is, and nothing else is remembered. A
second one then finds nothing to do, neither in its walk nor in its sweep.
-/

namespace Dockerset.Netfin
open Go Os Logic

/-- The walk from the root comes by exactly what is remembered, special files apart,
and finds it as it is remembered. -/
structure UpToDate (r : Run Trees) : Prop where
  dir : ∀ q a, Reach r.walked r.syncer.excluder.excluded [] q → r.walked.get q = some (.dir a) →
    r.state.lookup q = some (dirState a)
  file : ∀ q f, Reach r.walked r.syncer.excluder.excluded [] q → r.walked.get q = some (.file f) →
    r.state.lookup q = some (fileState f)
  known : ∀ q, r.state.lookup q ≠ none → Reach r.walked r.syncer.excluder.excluded [] q

section

variable {r r' : Run Trees} {q : Path}

/-- **A `Reconcile` that returned nil has brought the state map up to date.** -/
theorem ReconcileEnd.upToDate (h : ReconcileEnd r r') (hpr : Present r.dst r.state)
    (hlink : r.world.disk.dst.link = none) : UpToDate r' := by
  have hend := h
  obtain ⟨seen, t₁, m₁, t, n, m, hfull, hsw, rfl⟩ := h
  constructor
  · exact fun q a hq ha => hend.lookup_dir hpr.root hq ha
  · exact fun q f hq hf => hend.lookup_file hpr.root hq hf
  · intro q hq
    have hpr₁ : Present t₁ m₁ := (stepInv_present _).under.pass hfull.1 (fun _ _ _ _ => trivial) hpr
    by_contra hno
    have hseen : q ∉ seen := fun hs => hno ((hfull.2 q).1 hs)
    have hknown : m₁.lookup q ≠ none := fun h0 => hq (hsw.lookup_none h0)
    have hdoomed : Doomed r seen t₁ m₁ q := by
      unfold Doomed
      split
      · exact ⟨List.nil_prefix, hseen, hknown⟩
      · have hne : q ≠ [] := fun h0 => hknown (h0 ▸ hpr₁.root)
        exact ⟨hlink, List.nil_prefix, hne, hseen, hpr₁.has q hknown⟩
    exact hq ((hsw.clears hpr₁ hdoomed List.prefix_rfl).2 q List.prefix_rfl)

/-! ## The second walk -/

theorem wp_syncDir_known {info : Info} {Q : Unit → Run Trees → Prop} {E : Err → Run Trees → Prop}
    (h : r.state.lookup q = some (pathStateFromInfo .dir info)) (hQ : Q () r) :
    WP (syncDir q info) Q E r := by
  simp only [syncDir, stateMatches, getSyncer, WP.bind_iff, WP.get_iff, WP.pure_iff]
  rw [if_pos (by simpa using h)]
  exact hQ

theorem wp_copyRel_known {info : Info} {Q : Unit → Run Trees → Prop} {E : Err → Run Trees → Prop}
    (h : r.state.lookup q = some (pathStateFromInfo .file info)) (hQ : Q () r) :
    WP (copyRel q info) Q E r := by
  simp only [copyRel, stateMatches, getSyncer, WP.bind_iff, WP.get_iff, WP.pure_iff]
  rw [if_pos (by simpa using h)]
  exact hQ

theorem UpToDate.visit (h : UpToDate r) (hr : r.Quiet) (hlink : r.world.disk.src.link = none)
    {l : List Path} {k : Kind} (hk : r.src.kind q = some k)
    (hreach : Wanted r.src r.syncer.excluder.excluded q → Reach r.src r.syncer.excluder.excluded [] q) :
    WP (mirrorFn (fun _ => pure ()) q (.ok k)) (fun _ s => ∃ l, s = r.seeing l) (fun _ _ => False)
      (r.seeing l) := by
  have hw := Run.walked_eq_src hlink
  have hr' : (r.seeing l).Quiet := ⟨hr.plan, hr.tmp, hr.live⟩
  refine wp_mirrorFn_cases hr' hk (fun _ => ⟨l, rfl⟩) (fun hwant a hg => ?_) (fun hwant f hg => ?_)
    fun _ a _ => ⟨_, rfl⟩
  · exact wp_syncDir_known (h.dir q a (hw ▸ hreach hwant) (hw ▸ hg)) ⟨_, rfl⟩
  · exact wp_copyRel_known (h.file q f (hw ▸ hreach hwant) (hw ▸ hg)) ⟨_, rfl⟩

/-- A walk of the source from here does not fail on its own: the root is there, and
no directory is too deep to be listed. -/
def Walkable (r : Run Trees) : Prop :=
  r.world.disk.src.link = none → r.src.Has [] ∧
    ∀ v ∈ visits r.src (fun q => !r.syncer.excluder.excluded q) r.world.pathMax [], ∀ e, v.2 ≠ .error e

theorem wp_mirrorWalk_walkable (hr : r.Quiet) :
    WP (mirrorWalk (fun _ => pure ()) []) (fun _ _ => Walkable r) (fun _ _ => True) r := by
  cases hlink : r.world.disk.src.link with
  | some a => exact WP.trivial.mono (fun _ _ _ h => by simp [hlink] at h) fun _ _ h => h
  | none =>
    by_cases hp : r.src.Has []
    · refine (wp_mirrorWalk_iff false hr (.inr hlink) hp).2 ?_
      unfold WP
      split
      · next hrun => exact fun _ => ⟨hp, (steady_mirrorFn false hr).no_report hrun⟩
      · trivial
    · exact wp_mirrorWalk_missing hr hlink hp fun _ => trivial

theorem wp_reconcile_walkable (hr : r.Quiet) :
    WP reconcile (fun _ _ => Walkable r) (fun _ _ => True) r := by
  simp only [reconcile, WP.bind_iff]
  refine (wp_mirrorWalk_walkable hr).mono (fun seen s hwalk => ?_) fun _ _ h => h
  exact WP.trivial.mono (fun _ _ _ => hwalk) fun _ _ h => h

/-- **The walk over a source that is up to date** changes nothing. -/
theorem UpToDate.mirrorWalk (h : UpToDate r) (hr : r.Quiet) (hwalk : Walkable r) :
    WP (mirrorWalk (fun _ => pure ()) []) (fun _ s => ∃ l, s = r.seeing l) (fun _ _ => False) r := by
  cases hlink : r.world.disk.src.link with
  | some a => exact wp_mirrorWalk_link hr hlink ⟨[], rfl⟩
  | none =>
    obtain ⟨hp, hok⟩ := hwalk hlink
    refine (wp_mirrorWalk_iff false hr (.inr hlink) hp).2 ?_
    refine (WP.forM (fun _ s => ∃ l, s = r.seeing l) ⟨[], rfl⟩ ?_).mono (fun _ _ h => h) fun _ _ h => h
    rintro done ⟨q, entry⟩ rest _ hl ⟨l, rfl⟩
    have hl' : visits r.src (fun q => !r.syncer.excluder.excluded q) r.world.pathMax [] =
      done ++ (q, entry) :: rest := hl
    have hv : (q, entry) ∈ visits r.src (fun q => !r.syncer.excluder.excluded q) r.world.pathMax [] := by
      rw [hl']
      simp
    simp only [WP.bind_iff, WP.pure_iff]
    rcases next_visit hp hl' with ⟨k, rfl, hvk⟩ | ⟨rfl, -, -⟩
    · exact h.visit hr hlink hvk fun hwant => reach_of_visit hp hv hvk hwant
    · exact absurd rfl (hok _ hv _)

/-- **The sweep of a light `Reconcile`** when all that is remembered has been seen. -/
theorem wp_removeDeletedFromState_seen {seen : List Path} (h : ∀ q, r.state.lookup q ≠ none → q ∈ seen) :
    WP (removeDeletedFromState seen) (fun _ s => s = r) (fun _ _ => False) r := by
  simp only [removeDeletedFromState, removeDeletedFromStateUnder, getSyncer, WP.bind_iff, WP.get_iff,
    WP.pure_iff]
  refine WP.forM (fun _ s => s = r) rfl ?_
  intro done rel rest s hl hs
  subst hs
  have hmem : rel ∈ seen := by
    apply h
    apply mem_statePaths.1
    rw [hl]
    simp
  simp only [removeDeletedPath, ne_eq, not_true_eq_false, false_and, if_false, hmem, if_true,
    WP.pure_iff]

/-- **`Reconcile` with nothing to do.** -/
theorem UpToDate.reconcile (h : UpToDate r) (hr : r.Quiet) (hwalk : Walkable r)
    (hrec : r.syncer.reconciled = true) :
    WP reconcile (fun _ s => ∃ l, s = r.seeing l) (fun _ _ => False) r := by
  simp only [Netfin.reconcile, getSyncer, WP.bind_iff, WP.get_iff, WP.pure_iff, hrec, Bool.not_true,
    Bool.false_eq_true, if_false, wp_modifySyncer_iff]
  refine ((h.mirrorWalk hr hwalk).and (wp_mirrorWalk_root hr)).mono ?_ fun _ _ h => h.1
  rintro seen _ ⟨⟨l, rfl⟩, t, n, m, -, hfull⟩
  have hsweep := wp_removeDeletedFromState_seen (r := r.seeing l) fun q hq => (hfull.2 q).2 (h.known q hq)
  refine hsweep.mono ?_ fun _ _ h => h
  rintro _ _ rfl
  refine ⟨l, ?_⟩
  rw [← hrec]

end

/-- **Reconciling twice.** After any history of calls that spell the root `"."`, a
`Reconcile` that returned nil can be repeated: it returns nil again, and neither the
destination nor the syncer changes. The world counts the changes made to it, so
nothing was written either. -/
theorem reconcile_idempotent {w : World Trees} {patterns : List Str} {r r₁ : Run Trees}
    (hplan : w.plan = []) (htmp : w.tmp = none) (hlink : w.disk.dst.link = none)
    (hist : History RootedStep (freshRun w patterns) r) (hok : reconcile.run r = .ok () r₁) :
    ∃ r₂, reconcile.run r₁ = .ok () r₂ ∧ r₂.world = r₁.world ∧ r₂.syncer = r₁.syncer := by
  obtain ⟨hq, hpr, hdst⟩ : r.Quiet ∧ Present r.dst r.state ∧ r.world.disk.dst.link = none := by
    refine hist.inv (fun r => r.Quiet ∧ Present r.dst r.state ∧ r.world.disk.dst.link = none) ?_
      (fun r S h => ⟨⟨h.1.plan, h.1.tmp, h.1.live⟩, ⟨h.2.1.root, h.2.1.has⟩, h.2.2⟩)
      fun c r r' h hc => ?_
    · exact ⟨⟨hplan, htmp, rfl⟩, ⟨rfl, fun q hq => absurd rfl hq⟩, hlink⟩
    · obtain ⟨hf, hpr⟩ := hc.follows_present h.1 h.2.1
      exact ⟨hf.quiet h.1, hpr, hf.dstLink.trans h.2.2⟩
  have hend := (wp_reconcile hq hpr.root).ok hok
  have hup := hend.upToDate hpr hdst
  have hwalk := (wp_reconcile_walkable hq).ok hok
  obtain ⟨seen, t₁, m₁, t, n, m, -, -, rfl⟩ := hend
  obtain ⟨_, r₂, hrun, l, rfl⟩ := (hup.reconcile ⟨hq.plan, hq.tmp, hq.live⟩ hwalk rfl).returns
  exact ⟨_, hrun, rfl, rfl⟩

/-- After the first backup. -/
theorem reconcile_idempotent_copy : ∃ r₁ r₂ : Run Trees,
    reconcile.run (freshRun copyWorld []) = .ok () r₁ ∧ reconcile.run r₁ = .ok () r₂ ∧
      r₂.world = r₁.world ∧ r₂.syncer = r₁.syncer := by
  have h := ok_of_returns reconcile (freshRun copyWorld []) (by decide +kernel)
  obtain ⟨r₂, h₂, hw, hs⟩ := reconcile_idempotent (w := copyWorld) rfl rfl rfl .start h
  exact ⟨_, r₂, h, h₂, hw, hs⟩

/-- `SyncRel("")` remembers the root as a directory. The deep `Reconcile` after it
returns nil and keeps that entry; the next one takes it for a deleted path and
removes the whole destination. -/
theorem second_reconcile_removes : ∃ r₁ r₂ r₃ : Run Trees,
    (syncRel []).run (freshRun copyWorld []) = .ok () r₁ ∧ reconcile.run r₁ = .ok () r₂ ∧
      reconcile.run r₂ = .ok () r₃ ∧ r₂.dst.Has [nameA] ∧ ¬ r₃.dst.Has [] := by
  let r₁ := after (syncRel []) (freshRun copyWorld [])
  let r₂ := after reconcile r₁
  have h₁ := ok_of_returns (syncRel []) (freshRun copyWorld []) (by decide +kernel)
  have h₂ := ok_of_returns reconcile r₁ (by decide +kernel)
  have h₃ := ok_of_returns reconcile r₂ (by decide +kernel)
  have hbefore : r₂.dst.Has [nameA] := by decide +kernel
  have hafter : ¬ (after reconcile r₂).dst.Has [] := by decide +kernel
  exact ⟨r₁, r₂, _, h₁, h₂, h₃, hbefore, hafter⟩

end Dockerset.Netfin

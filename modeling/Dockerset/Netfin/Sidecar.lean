import Dockerset.Logic.Runs
import Dockerset.Os.World

/-!
# The sidecar process (`Syncer.Run` and `runSidecar`)

Two goroutines and the main one, which waits for the first result and then
cancels the context of the other. `Run` is an automaton: it looks for the source,
watches it, and after a failure of the watcher starts over. Every call it makes
can have any outcome, the context can be cancelled between any two steps, and of
the replicator of the databases only its result is seen.
-/

namespace Dockerset.Netfin.Sidecar
open Go Os Logic

/-- Where the goroutine of `Run` is. When it has returned, it is kept whether its
context had been cancelled by then. -/
inductive SyncPc where
  | mkdirAll
  /-- in `waitForDir` -/
  | stat
  | waitSleep
  /-- in `runWatching` -/
  | newWatcher
  | addWatchTree
  | watching
  /-- `runWatching` has returned an error -/
  | watchFailed
  | retrySleep
  | returned (err : Option Err) (cancelled : Bool)
deriving DecidableEq

/-- What its next call brings, or which case of a `select` is taken. -/
inductive SyncAct where
  | mkdirAll (err : Option Errno)
  | stat (r : Except Errno Kind)
  | timer
  | ctxDone
  | newWatcher (ok : Bool)
  | addWatchTree (ok : Bool)
  /-- an event, an error of the watcher, the debounce timer or the ticker -/
  | watchEvent
  /-- `ctx.Err() != nil` -/
  | ctxErr
deriving DecidableEq

/-- One step of `Run`. -/
def syncStep (cancelled : Bool) : SyncPc → SyncAct → Option SyncPc
  | .mkdirAll, .mkdirAll none => some .stat
  | .mkdirAll, .mkdirAll (some e) => some (.returned (some (.errno e)) cancelled)
  | .stat, .stat (.ok kind) =>
    -- "source path is not a directory": Run drops the error of waitForDir
    some (if kind = .dir then .newWatcher else .returned none cancelled)
  | .stat, .stat (.error e) =>
    some (if Err.isNotExist (.errno e) then .waitSleep else .returned none cancelled)
  | .waitSleep, .timer => some .stat
  | .waitSleep, .ctxDone => if cancelled then some (.returned none cancelled) else none
  | .newWatcher, .newWatcher ok => some (if ok then .addWatchTree else .watchFailed)
  | .addWatchTree, .addWatchTree ok => some (if ok then .watching else .watchFailed)
  | .watching, .watchEvent => some .watching
  | .watching, .ctxDone => if cancelled then some (.returned none cancelled) else none
  | .watchFailed, .ctxErr => some (if cancelled then .returned none cancelled else .retrySleep)
  | .retrySleep, .timer => some .stat
  | .retrySleep, .ctxDone => if cancelled then some (.returned none cancelled) else none
  | _, _ => none

/-- The sender of a result on `errCh`. -/
inductive Origin where
  | fileSync
  | sqlite
deriving DecidableEq

/-- Why `runSidecar` stops. -/
inductive Cause where
  | context
  | result (o : Origin)
deriving DecidableEq

/-- Where `runSidecar` is: at its `select`, waiting for the goroutines, or back. -/
inductive MainPc where
  | select
  | stopping (cause : Cause) (runErr : Option Err)
  | exited (cause : Cause) (runErr : Option Err)
deriving DecidableEq

structure State where
  /-- `ctx.Err() != nil` -/
  cancelled : Bool
  sync : SyncPc
  sqliteDone : Bool
  errCh : List (Origin × Option Err)
  main : MainPc
deriving DecidableEq

inductive Act where
  /-- SIGINT or SIGTERM -/
  | signal
  | sync (a : SyncAct)
  | sqliteReturns (err : Option Err)
  | mainDone
  | mainReceives
  | mainExits
deriving DecidableEq

def start (dryRun : Bool) : State where
  cancelled := false
  sync := if dryRun then .stat else .mkdirAll
  sqliteDone := false
  errCh := []
  main := .select

/-- What a goroutine that has come to `pc` sends. -/
def SyncPc.sent : SyncPc → List (Origin × Option Err)
  | .returned err _ => [(.fileSync, err)]
  | _ => []

/-- One step of the process. -/
def step (s : State) : Act → Option State
  | .signal => some { s with cancelled := true }
  | .sync a => (syncStep s.cancelled s.sync a).map fun pc =>
      { s with sync := pc, errCh := s.errCh ++ pc.sent }
  | .sqliteReturns err =>
    if s.sqliteDone then none
    else some { s with sqliteDone := true, errCh := s.errCh ++ [(.sqlite, err)] }
  | .mainDone =>
    if s.main = .select ∧ s.cancelled = true then some { s with main := .stopping .context none }
    else none
  | .mainReceives =>
    match s.main, s.errCh with
    | .select, (o, err) :: rest =>
      -- `err != nil && !errors.Is(err, context.Canceled)`, then `cancel()`
      some { s with
        errCh := rest, cancelled := true,
        main := .stopping (.result o) (if err = some .canceled then none else err) }
    | _, _ => none
  | .mainExits =>
    match s.main, s.sync, s.sqliteDone with
    | .stopping cause runErr, .returned _ _, true => some { s with main := .exited cause runErr }
    | _, _, _ => none

/-- File sync has not stopped silently: `Run` has returned nil only after its
context was cancelled, and the process does not stop with success because of a
result of `Run` that came before. -/
structure Loud (s : State) : Prop where
  run : ∀ c, s.sync = .returned none c → c = true
  sidecar : (s.main = .stopping (.result .fileSync) none ∨
    s.main = .exited (.result .fileSync) none) → ∃ err, s.sync = .returned err true

/-- The source is a directory or missing whenever it is looked at before the
context is cancelled. -/
def Met (s : State) (a : Act) : Prop :=
  ∀ r, a = .sync (.stat r) → s.cancelled = true ∨ r = .ok .dir ∨ r = .error .ENOENT

/-! ## One step -/

section

variable {s s' : State} {a : Act} {pc : SyncPc} {sa : SyncAct} {c : Bool}

/-- What `Stat` says for `waitForDir` to give up. -/
def GivesUp (sa : SyncAct) : Prop := ∃ r, sa = .stat r ∧ r ≠ .ok .dir ∧ r ≠ .error .ENOENT

/-- `Run` returns nil after a cancellation, or because `waitForDir` gave up. -/
theorem syncStep_returned {err : Option Err} {c' : Bool}
    (h : syncStep c pc sa = some (.returned err c')) :
    c' = c ∧ err ≠ some .canceled ∧ (err = none → c = true ∨ GivesUp sa) := by
  have done : ∀ {x : Option SyncPc}, x = (if c then some (.returned none c) else none) →
      x = some (.returned err c') → c' = c ∧ err ≠ some .canceled ∧ (err = none → c = true ∨ GivesUp sa) := by
    intro x hx hr
    rw [hx] at hr
    split at hr
    · next hc =>
      cases hr
      exact ⟨rfl, by simp, fun _ => .inl hc⟩
    · cases hr
  unfold syncStep at h
  split at h
  case h_2 e =>
    cases h
    exact ⟨rfl, by simp, by simp⟩
  case h_3 kind =>
    rw [Option.some.injEq] at h
    split at h
    · cases h
    · next hkind =>
      cases h
      exact ⟨rfl, by simp, fun _ => .inr ⟨_, rfl, by simpa using hkind, by simp⟩⟩
  case h_4 e =>
    rw [Option.some.injEq] at h
    split at h
    · cases h
    · next he =>
      cases h
      refine ⟨rfl, by simp, fun _ => .inr ⟨_, rfl, by simp, ?_⟩⟩
      intro hr
      cases hr
      exact he rfl
  case h_6 => exact done rfl h
  case h_10 => exact done rfl h
  case h_11 =>
    rw [Option.some.injEq] at h
    split at h
    · next hc =>
      cases h
      exact ⟨rfl, by simp, fun _ => .inl hc⟩
    · cases h
  case h_13 => exact done rfl h
  case h_7 ok =>
    cases ok <;> cases h
  case h_8 ok =>
    cases ok <;> cases h
  all_goals cases h

theorem syncStep_of_returned {err : Option Err} {c' : Bool} :
    syncStep c (.returned err c') sa = none := by
  cases sa <;> rfl

/-- The results of `Run` on the channel are what it has returned. -/
def Posted (s : State) : Prop :=
  ∀ err, (Origin.fileSync, err) ∈ s.errCh → err ≠ some .canceled ∧ ∃ c, s.sync = .returned err c

/-- What every step keeps, if it meets the condition. -/
structure Inv (s : State) : Prop where
  posted : Posted s
  loud : Loud s

theorem Inv.sync {pc : SyncPc} (hi : Inv s) (hstep : syncStep s.cancelled s.sync sa = some pc)
    (hmet : Met s (.sync sa)) : Inv { s with sync := pc, errCh := s.errCh ++ pc.sent } := by
  have hrunning : ∀ err c, s.sync ≠ .returned err c := by
    intro err c hreturned
    rw [hreturned, syncStep_of_returned] at hstep
    cases hstep
  constructor
  · intro err hmem
    rcases List.mem_append.1 hmem with hold | hnew
    · obtain ⟨-, c, hreturned⟩ := hi.posted err hold
      exact absurd hreturned (hrunning err c)
    · cases pc with
      | returned err' c =>
        cases List.mem_singleton.1 hnew
        exact ⟨(syncStep_returned hstep).2.1, c, rfl⟩
      | mkdirAll | stat | waitSleep | newWatcher | addWatchTree | watching | watchFailed | retrySleep =>
        cases hnew
  · constructor
    · intro c hreturned
      change pc = _ at hreturned
      subst hreturned
      obtain ⟨rfl, -, hnil⟩ := syncStep_returned hstep
      rcases hnil rfl with hc | ⟨r, rfl, hdir, hmissing⟩
      · exact hc
      · rcases hmet r rfl with hc | h | h
        · exact hc
        · exact absurd h hdir
        · exact absurd h hmissing
    · intro hmain
      obtain ⟨err, hreturned⟩ := hi.loud.sidecar hmain
      exact absurd hreturned (hrunning err true)

/-- A result that `runSidecar` receives from `Run` is nil only after a cancellation. -/
theorem Inv.received {o : Origin} {err : Option Err} {rest : List (Origin × Option Err)}
    (hi : Inv s) (hch : s.errCh = (o, err) :: rest) :
    Inv { s with
      errCh := rest, cancelled := true,
      main := .stopping (.result o) (if err = some .canceled then none else err) } := by
  refine ⟨?_, hi.loud.run, ?_⟩
  · intro err' hmem
    apply hi.posted err'
    rw [hch]
    exact List.mem_cons_of_mem _ hmem
  · intro hmain
    rcases hmain with h | h
    · injection h with hcause herr
      cases hcause
      have hhead : (Origin.fileSync, err) ∈ s.errCh := by
        rw [hch]
        exact List.mem_cons_self
      obtain ⟨hne, c, hreturned⟩ := hi.posted err hhead
      rw [if_neg hne] at herr
      subst herr
      have hc := hi.loud.run c hreturned
      subst hc
      exact ⟨none, hreturned⟩
    · cases h

theorem Inv.step (hi : Inv s) (hstep : step s a = some s') (hmet : Met s a) : Inv s' := by
  cases a with
  | signal =>
    cases hstep
    exact ⟨hi.posted, hi.loud.run, hi.loud.sidecar⟩
  | sync sa =>
    obtain ⟨pc, hpc, rfl⟩ := Option.map_eq_some_iff.1 hstep
    exact hi.sync hpc hmet
  | sqliteReturns err =>
    simp only [Sidecar.step] at hstep
    split at hstep
    · cases hstep
    · cases hstep
      refine ⟨?_, hi.loud.run, hi.loud.sidecar⟩
      intro err' hmem
      rcases List.mem_append.1 hmem with hold | hnew
      · exact hi.posted err' hold
      · cases List.mem_singleton.1 hnew
  | mainDone =>
    simp only [Sidecar.step] at hstep
    split at hstep
    · cases hstep
      refine ⟨hi.posted, hi.loud.run, ?_⟩
      intro hmain
      rcases hmain with h | h <;> cases h
    · cases hstep
  | mainReceives =>
    simp only [Sidecar.step] at hstep
    split at hstep
    · next o err rest _ hch =>
      cases hstep
      exact hi.received hch
    · cases hstep
  | mainExits =>
    simp only [Sidecar.step] at hstep
    split at hstep
    · next cause runErr _ _ hmain hsync _ =>
      cases hstep
      refine ⟨hi.posted, hi.loud.run, ?_⟩
      intro hexit
      rcases hexit with h | h
      · cases h
      · injection h with hcause herr
        apply hi.loud.sidecar
        left
        rw [hmain, hcause, herr]
    · cases hstep

theorem inv_start (dryRun : Bool) : Inv (start dryRun) := by
  refine ⟨?_, ?_, ?_⟩
  · intro err h
    cases h
  · intro c h
    cases dryRun <;> cases h
  · intro h
    rcases h with h | h <;> cases h

/-- A look at the source that does not meet the condition ends file sync with nil. -/
theorem silent_of_not_met (hstep : step s a = some s') (h : ¬ Met s a) :
    s'.sync = .returned none false := by
  simp only [Met, not_forall, not_or] at h
  obtain ⟨r, rfl, hc, hdir, hmissing⟩ := h
  rw [Bool.not_eq_true] at hc
  obtain ⟨pc, hpc, rfl⟩ := Option.map_eq_some_iff.1 hstep
  rw [hc] at hpc
  change pc = _
  cases hs : s.sync with
  | stat =>
    rw [hs] at hpc
    cases r with
    | ok kind =>
      have hkind : kind ≠ .dir := by
        intro hk
        exact hdir (by rw [hk])
      rw [syncStep, if_neg hkind] at hpc
      cases hpc
      rfl
    | error e =>
      have he : ¬ Err.isNotExist (.errno e) = true := by
        intro hnot
        apply hmissing
        have heq : Err.errno e = .errno .ENOENT := by simpa [Err.isNotExist] using hnot
        cases heq
        rfl
      rw [syncStep, if_neg he] at hpc
      cases hpc
      rfl
  | mkdirAll | waitSleep | newWatcher | addWatchTree | watching | watchFailed | retrySleep | returned =>
    rw [hs] at hpc
    cases hpc

/-- **When file sync does not stop silently**: in every run in which the source is
a directory or missing each time it is looked at before a cancellation. A look
at anything else stops it. -/
theorem run_loud (dryRun : Bool) :
    (∀ log s, Runs (fun s a s' => step s a = some s' ∧ Met s a) (fun _ _ => True) (start dryRun) log s →
      Loud s) ∧
    ∀ s a s', step s a = some s' → ¬ Met s a → ¬ Loud s' := by
  constructor
  · intro log s hrun
    have hinv : Inv s := by
      apply hrun.inv (fun _ s => Inv s) (inv_start dryRun)
      intro _ s a s' hi _ hstep
      exact hi.step hstep.1 hstep.2
    exact hinv.loud
  · intro s a s' hstep hmet hloud
    have hc := hloud.run false (silent_of_not_met hstep hmet)
    cases hc

end

/-- The source is a regular file: the process stops the replication of the
databases, and is about to exit with success. -/
theorem run_silent : ∃ s, [Act.sync (.mkdirAll none), .sync (.stat (.ok .file)), .mainReceives].foldlM
      step (start false) = some s ∧
    s.sync = .returned none false ∧ s.cancelled = true ∧ s.sqliteDone = false ∧
    s.main = .stopping (.result .fileSync) none := by
  refine ⟨_, rfl, ?_, ?_, ?_, ?_⟩
  all_goals decide

end Dockerset.Netfin.Sidecar

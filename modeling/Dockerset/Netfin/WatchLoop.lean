import Dockerset.Logic.Runs
import Dockerset.Netfin.Incremental
import Dockerset.Netfin.Steps
import Dockerset.Netfin.Watch

/-!
# The loop of `runWatching`

An event is queued and starts the debounce timer anew; when the timer fires, what is
pending is synced, and at every tick of another timer everything is. Between two turns of
the loop, and during them, the rest of the machine may do anything. `nothing_lost` follows
an event through a run: until a flush has handled its path, the path is pending, and while
anything is pending the timer is set.
-/

namespace Dockerset.Netfin
open Go Os Logic

/-- What the loop has done. -/
inductive LoopTurn where
  /-- Time passes outside of the loop. -/
  | pause
  /-- An error of the watcher was logged. -/
  | watcherError
  | event (e : FsEvent) (queued : Option PendingEntry)
  /-- The entries that were synced; `cut` when the context was done before all were. -/
  | flush (done : List PendingEntry) (cut : Bool)
  | reconcile

section

variable {D : Type} [Disk D]

/-- The entries that a flush is to handle, in order. -/
def Watching.due (s : Watching D) : List PendingEntry :=
  collapsePending (pendingEntries s.run.syncer.pending)

/-- How many of them it comes to. -/
def Watching.reached (s : Watching D) : Nat := ((value flushPending s.run).getD []).length

/-- One turn of the loop in `runWatching`; the errors of the calls are logged. -/
inductive LoopStep (getwd : Getwd) (src : Str) : Watching D → LoopTurn → Watching D → Prop
  | pause {s : Watching D} (w : World D) :
      LoopStep getwd src s .pause { s with run := { s.run with world := w } }
  | watcherError {s : Watching D} : LoopStep getwd src s .watcherError s
  | event {s : Watching D} (e : FsEvent) :
      LoopStep getwd src s (.event e (value (handleEvent getwd src e) s).join)
        { after (handleEvent getwd src e) s with armed := true }
  | flush {s : Watching D} (hfired : s.armed = true) :
      LoopStep getwd src s (.flush (s.due.take s.reached) (decide (s.reached < s.due.length)))
        { s with run := after flushPending s.run, armed := false }
  | reconcile {s : Watching D} :
      LoopStep getwd src s .reconcile { s with run := after Netfin.reconcile s.run }

end

/-! ## What the calls leave pending -/

section

variable {D : Type} [Disk D] (P : AList fun _ : Path => Bool)

theorem mirrorKeeps_pending : MirrorKeeps (D := D) (fun _ => True) (fun _ => True) fun s => s.pending = P where
  below _ _ _ := trivial
  writes _ _ _ _ _ := ⟨fun _ _ => trivial, fun _ _ => trivial, fun _ _ => trivial, fun _ _ => trivial⟩
  remember s p st _ hs := by
    unfold Syncer.remember
    split <;> exact hs

theorem dropKeeps_pending : DropKeeps (D := D) (fun _ => True) (fun _ => True) fun s => s.pending = P where
  removals _ _ _ _ _ := ⟨fun _ _ => trivial, fun _ _ => trivial⟩
  forget s p _ hs := by
    unfold Syncer.forget
    split <;> exact hs
  forgetTree s p _ hs := by
    unfold Syncer.forgetTree
    split <;> exact hs

/-- Nothing is queued or taken by a call: the pending map stays as it is. -/
def Waits (r : Run D) : Prop := HeldWithBy (fun _ => True) (fun _ => True) (fun s => s.pending = P) r

variable {P}

omit [Disk D] in
theorem waits_iff {r : Run D} : Waits P r ↔ r.syncer.pending = P := by
  constructor
  · exact fun h => h.2
  · exact fun h => ⟨⟨trivial, fun _ _ => trivial⟩, h⟩

theorem waits_reconcile : Preserves (Waits P) (reconcile : SyncM D Unit) :=
  heldWith_reconcile (fun _ _ _ _ => trivial) (mirrorKeeps_pending P) (dropKeeps_pending P)
    (fun _ => trivial) fun _ hs => hs

theorem wp_flushEntry_waits (item : PendingEntry) {r : Run D} (hr : Waits P r) :
    WP (flushEntry item) (fun _ => Waits P) (fun _ _ => False) r := by
  have hm : Mirroring (fun _ => True) (Waits P (D := D)) := (mirrorKeeps_pending P).mirrors fun _ _ _ _ => trivial
  have hd : Dropping (fun _ => True) (Waits P (D := D)) :=
    (dropKeeps_pending P).drops (fun _ _ _ _ => trivial) fun _ _ _ _ => trivial
  have hspecial := (dropKeeps_pending P).removeSpecial (C := fun _ : Event D => True) fun _ _ _ _ => trivial
  unfold flushEntry
  split
  · exact wp_tryCall_iff.2 (hm.syncTree hd hspecial (fun _ => trivial) r hr)
  · exact wp_tryCall_iff.2 (hm.syncRel hd (fun _ => trivial) r hr)

/-- A flush returns, with a result for each entry it came to. -/
theorem wp_flushEntries_waits (items : List PendingEntry) {r : Run D} (hr : Waits P r) :
    WP (flushEntries items) (fun rs r' => rs.length ≤ items.length ∧ Waits P r') (fun _ _ => False) r := by
  induction items generalizing r with
  | nil => exact ⟨Nat.le_refl _, hr⟩
  | cons item rest ih =>
    have hpoll : Preserves (Waits P (D := D)) (liftSys pollCtx) :=
      (looks_heldWith fun _ _ _ _ => trivial).poll
    rw [flushEntries, WP.bind_iff, wp_liftSys_iff, wp_attempt_iff]
    refine (wp_liftSys_iff.1 (hpoll r hr)).mono (fun _ w hw => ?_) fun _ w hw => ?_
    · simp only [WP.bind_iff]
      refine (wp_flushEntry_waits item hw).mono (fun _ r₁ h₁ => ?_) fun _ _ h => h
      exact (ih h₁).mono (fun rs r₂ h₂ => ⟨Nat.succ_le_succ h₂.1, h₂.2⟩) fun _ _ h => h
    · exact ⟨Nat.zero_le _, hw⟩

/-- **A flush** takes everything that is pending. -/
theorem flushPending_waits (r : Run D) :
    ∃ rs, value flushPending r = some rs ∧ rs.length ≤ (collapsePending (pendingEntries r.syncer.pending)).length ∧
      (after flushPending r).syncer.pending = ∅ := by
  let r₀ : Run D := { r with syncer := { r.syncer with pending := ∅ } }
  have hflush : flushPending.run r =
      (flushEntries (collapsePending (pendingEntries r.syncer.pending))).run r₀ := rfl
  obtain ⟨rs, r', hrun, hlen, hwaits⟩ :=
    (wp_flushEntries_waits (collapsePending (pendingEntries r.syncer.pending)) (r := r₀)
      (waits_iff.2 rfl)).returns
  rw [← hflush] at hrun
  refine ⟨rs, ?_, hlen, ?_⟩
  · rw [value, hrun]
  · rw [after_of_ok hrun]
    exact waits_iff.1 hwaits

/-! ## What an event queues -/

section

variable {s : Watching D} {y : Syncer} {α : Type}

omit [Disk D] in
theorem syncer_liftSys (x : Sys D α) :
    Preserves (fun s : Watching D => s.run.syncer = y) (liftSys x : WatchM D α) := by
  intro s hs
  rw [wp_liftSys_iff]
  exact WP.trivial.mono (fun _ _ _ => hs) fun _ _ _ => hs

theorem syncer_watchFn (p : Path) (entry : Except Err Kind) :
    Preserves (fun s : Watching D => s.run.syncer = y) (watchFn p entry) := by
  cases entry with
  | error e => exact preserves_throw e
  | ok k =>
    refine preserves_bind preserves_get fun s => ?_
    refine preserves_ite (fun _ => preserves_pure _) fun _ => ?_
    refine preserves_bind (syncer_liftSys _) fun info => ?_
    refine preserves_ite (fun _ => preserves_pure _) fun _ => ?_
    refine preserves_ite (fun _ => preserves_pure _) fun _ => ?_
    refine preserves_bind (preserves_bind preserves_get fun s => ?_) fun _ => preserves_pure _
    split
    · exact preserves_throw _
    · exact preserves_modify fun _ hs => hs

theorem syncer_addWatchTreeAt (p : Path) :
    Preserves (fun s : Watching D => s.run.syncer = y) (addWatchTreeAt p) := by
  have hguided : Guided (watchFn (D := D)) .src (fun s : Watching D => s.run.syncer = y) fun _ _ => True :=
    ⟨fun q k _ => syncer_watchFn q _, fun q e => syncer_watchFn q _, fun q s _ hs =>
      (syncer_liftSys _ s hs).mono (fun _ _ h => ⟨h, fun _ _ _ _ => trivial⟩) fun _ _ h => h⟩
  exact hguided.walk fun s hs =>
    (syncer_liftSys _ s hs).mono (fun _ _ h => ⟨h, fun _ _ => trivial⟩) fun _ _ h => h

/-- Whether the event is a new directory or not, the call returns and nothing is queued yet. -/
theorem wp_watchNew (e : FsEvent) (p : Path) (hs : s.run.syncer = y) :
    WP (watchNew e p) (fun _ s' => s'.run.syncer = y) (fun _ _ => False) s := by
  unfold watchNew
  split
  · simp only [WP.bind_iff, wp_liftSys_iff, wp_attempt_iff]
    refine WP.trivial.mono (fun info w _ => ?_) fun _ w _ => hs
    split
    · simp only [WP.bind_iff, wp_tryCall_iff]
      have hwatched := syncer_addWatchTreeAt p (HasWorld.setWorld s w) (y := y) hs
      exact hwatched.mono (fun _ _ h => h) fun _ _ h => h
    · exact hs
  · exact hs

/-- The pending map with an entry added to it. -/
def withEntry (pending : AList fun _ : Path => Bool) (e : PendingEntry) : AList fun _ : Path => Bool :=
  pending.insert e.rel ((pending.lookup e.rel).getD false || e.tree)

/-- **What an event does**: it is queued at its path below the root. -/
theorem wp_handleEvent (getwd : Getwd) (src : Str) (e : FsEvent) (s : Watching D) :
    WP (handleEvent getwd src e)
      (fun queued s' => (queued = none ∧ s'.run.syncer = s.run.syncer ∧
          ∀ rel, e.name ≠ [] → SafePath.safeRel getwd src e.name = .ok rel → rel = ['.']) ∨
        ∃ entry rel, queued = some entry ∧ SafePath.safeRel getwd src e.name = .ok rel ∧ rel ≠ ['.'] ∧
          entry.rel = (clean rel).comps ∧ s'.run.syncer.pending = withEntry s.run.syncer.pending entry)
      (fun _ _ => False) s := by
  unfold handleEvent
  split
  · next hname => exact .inl ⟨rfl, rfl, fun _ hne => absurd hname hne⟩
  cases hrel : SafePath.safeRel getwd src e.name with
  | error text => exact .inl ⟨rfl, rfl, fun _ _ h => by cases h⟩
  | ok rel =>
    dsimp only
    split
    · next hdot =>
      refine .inl ⟨rfl, rfl, fun rel' _ h => ?_⟩
      cases h
      exact hdot
    · next hdot =>
      simp only [eventEntry, WP.bind_iff]
      refine (wp_watchNew e (clean rel).comps rfl).mono (fun new s' hs' => ?_) fun _ _ h => h
      cases new with
      | true => exact .inr ⟨_, rel, rfl, rfl, hdot, rfl, by rw [← hs']; rfl⟩
      | false => exact .inr ⟨_, rel, rfl, rfl, hdot, rfl, by rw [← hs']; rfl⟩

end

end

/-! ## From an event to its flush -/

/-- Whatever `e` stands for, `x` stands for too. -/
def Serves (x e : PendingEntry) : Prop := ∀ q, Handles e q → Handles x q

theorem serves_refl (e : PendingEntry) : Serves e e := fun _ h => h

/-- An entry serves what another one at its path does, or a tree entry what is below. -/
theorem serves_of_tree {x e : PendingEntry} (hrel : x.rel = e.rel) (htree : e.tree = true → x.tree = true) :
    Serves x e := by
  intro q hq
  rcases hq with hq | ⟨ht, hpre⟩
  · exact .inl (hrel.trans hq)
  · exact .inr ⟨htree ht, hrel ▸ hpre⟩

/-- What is queued is pending, with all that was pending before. -/
theorem serves_withEntry (pending : AList fun _ : Path => Bool) (e : PendingEntry) :
    ∀ y, y = e ∨ y ∈ pendingEntries pending → ∃ x ∈ pendingEntries (withEntry pending e), Serves x y := by
  have hnew : (⟨e.rel, (pending.lookup e.rel).getD false || e.tree⟩ : PendingEntry) ∈
      pendingEntries (withEntry pending e) := mem_pendingEntries.2 (AList.lookup_insert pending)
  intro y hy
  by_cases hrel : y.rel = e.rel
  · refine ⟨_, hnew, serves_of_tree hrel.symm fun htree => ?_⟩
    rcases hy with rfl | hy
    · simp [htree]
    · rw [← hrel, mem_pendingEntries.1 hy, htree]
      rfl
  · rcases hy with rfl | hy
    · exact absurd rfl hrel
    · refine ⟨y, mem_pendingEntries.2 ?_, serves_refl y⟩
      rw [withEntry, AList.lookup_insert_ne hrel]
      exact mem_pendingEntries.1 hy

/-- An entry that is dropped is served by the one that absorbs it. -/
theorem serves_collapsePending {l : List PendingEntry} {e : PendingEntry} (he : e ∈ l) :
    ∃ x ∈ collapsePending l, Serves x e := by
  rcases (isCover_collapsePending l).covered e ((List.perm_insertionSort pendingLe l).mem_iff.2 he) with
    hout | ⟨x, hx, habs⟩
  · exact ⟨e, hout, serves_refl e⟩
  · obtain ⟨htree, hpre⟩ := isPrefix_of_absorbs habs
    exact ⟨x, hx, fun q hq => .inr ⟨htree, hpre.trans hq.below⟩⟩

section

variable {D : Type} [Disk D] {getwd : Getwd} {src : Str} {log : List LoopTurn} {s : Watching D}

/-- The entry was handled by a flush after the turn `i`, or the flush was cut short. -/
def FlushedAfter (log : List LoopTurn) (i : Nat) (e : PendingEntry) : Prop :=
  ∃ j done cut, i < j ∧ log[j]? = some (.flush done cut) ∧ (cut = true ∨ ∃ x ∈ done, Serves x e)

theorem FlushedAfter.mono {i : Nat} {e : PendingEntry} (h : FlushedAfter log i e)
    (turn : LoopTurn) : FlushedAfter (log ++ [turn]) i e := by
  obtain ⟨j, done, cut, hij, hlog, hdone⟩ := h
  exact ⟨j, done, cut, hij, getElem?_concat_of_some hlog, hdone⟩

/-- What holds of every run of the loop: the timer is set while anything is pending, and
every entry that was queued is pending or was flushed. -/
structure Accounted (log : List LoopTurn) (s : Watching D) : Prop where
  armed : s.run.syncer.pending ≠ ∅ → s.armed = true
  queued : ∀ i ev e, log[i]? = some (.event ev (some e)) →
    (∃ x ∈ pendingEntries s.run.syncer.pending, Serves x e) ∨ FlushedAfter log i e

omit [Disk D] in
theorem Accounted.idle {s' : Watching D} {turn : LoopTurn} (h : Accounted log s)
    (hno : ∀ ev queued, turn ≠ .event ev queued) (hpending : s'.run.syncer.pending = s.run.syncer.pending)
    (harmed : s'.armed = s.armed) : Accounted (log ++ [turn]) s' where
  armed hne := by
    rw [harmed]
    exact h.armed (hpending ▸ hne)
  queued i ev e hlog := by
    rcases getElem?_concat_eq hlog with hold | ⟨-, hnew⟩
    · rw [hpending]
      exact (h.queued i ev e hold).imp id fun hf => hf.mono turn
    · exact absurd hnew (hno ev _)

theorem Accounted.event (h : Accounted log s) (ev : FsEvent) :
    Accounted (log ++ [.event ev (value (handleEvent getwd src ev) s).join])
      { after (handleEvent getwd src ev) s with armed := true } := by
  obtain ⟨queued, s', hrun, hspec⟩ := (wp_handleEvent getwd src ev s).returns
  have hvalue : (value (handleEvent getwd src ev) s).join = queued := by
    rw [value, hrun]
    rfl
  rw [hvalue, after_of_ok hrun]
  refine ⟨fun _ => rfl, ?_⟩
  intro i ev' e hlog
  rcases hspec with ⟨rfl, hsyncer, -⟩ | ⟨entry, rel, rfl, -, -, -, hpending⟩
  · rcases getElem?_concat_eq hlog with hold | ⟨-, hnew⟩
    · change (∃ x ∈ pendingEntries s'.run.syncer.pending, _) ∨ _
      rw [hsyncer]
      exact (h.queued i ev' e hold).imp id fun hf => hf.mono _
    · cases hnew
  · change (∃ x ∈ pendingEntries s'.run.syncer.pending, _) ∨ _
    rw [hpending]
    rcases getElem?_concat_eq hlog with hold | ⟨-, hnew⟩
    · rcases h.queued i ev' e hold with ⟨y, hy, hserves⟩ | hf
      · obtain ⟨x, hx, hxy⟩ := serves_withEntry s.run.syncer.pending entry y (.inr hy)
        exact .inl ⟨x, hx, fun q hq => hxy q (hserves q hq)⟩
      · exact .inr (hf.mono _)
    · cases hnew
      exact .inl (serves_withEntry s.run.syncer.pending e e (.inl rfl))

theorem Accounted.flush (h : Accounted log s) :
    Accounted (log ++ [.flush (s.due.take s.reached) (decide (s.reached < s.due.length))])
      { s with run := after flushPending s.run, armed := false } := by
  obtain ⟨rs, hvalue, hlen, hempty⟩ := flushPending_waits s.run
  refine ⟨fun hne => absurd hempty hne, ?_⟩
  intro i ev e hlog
  rcases getElem?_concat_eq hlog with hold | ⟨-, hnew⟩
  · right
    rcases h.queued i ev e hold with ⟨y, hy, hserves⟩ | hf
    · refine ⟨log.length, _, _, (List.getElem?_eq_some_iff.1 hold).1, List.getElem?_concat_length, ?_⟩
      by_cases hcut : s.reached < s.due.length
      · exact .inl (decide_eq_true hcut)
      · right
        rw [List.take_of_length_le (Nat.not_lt.1 hcut)]
        obtain ⟨x, hx, hxy⟩ := serves_collapsePending hy
        exact ⟨x, hx, fun q hq => hxy q (hserves q hq)⟩
    · exact hf.mono _
  · cases hnew

theorem Accounted.step {s' : Watching D} {turn : LoopTurn} (h : Accounted log s)
    (hstep : LoopStep getwd src s turn s') : Accounted (log ++ [turn]) s' := by
  cases hstep with
  | pause w => exact h.idle (fun _ _ => by simp) rfl rfl
  | watcherError => exact h.idle (fun _ _ => by simp) rfl rfl
  | event e => exact h.event e
  | flush hfired => exact h.flush
  | reconcile =>
    refine h.idle (fun _ _ => by simp) ?_ rfl
    exact waits_iff.1 (waits_reconcile.after (waits_iff.2 rfl))

/-- Every event at a path below the root was queued at that path. -/
def Placed (getwd : Getwd) (root : Path) (log : List LoopTurn) : Prop :=
  ∀ (i : Nat) (ev : FsEvent) (queued : Option PendingEntry) (p : Path),
    log[i]? = some (.event ev queued) → ev.name ≠ [] → p ≠ [] →
    filepathAbs getwd ev.name = .ok (absStr (root ++ p)) → ∃ e, queued = some e ∧ e.rel = p

theorem Placed.step {root : Path} {s' : Watching D} {turn : LoopTurn}
    (hsrc : src ≠ []) (habs : filepathAbs getwd src = .ok (absStr root)) (h : Placed getwd root log)
    (hstep : LoopStep getwd src s turn s') : Placed getwd root (log ++ [turn]) := by
  intro i ev queued p hlog hne hp hname
  rcases getElem?_concat_eq hlog with hold | ⟨-, rfl⟩
  · exact h i ev queued p hold hne hp hname
  cases hstep with
  | event e =>
    obtain ⟨queued, t, hrun, hspec⟩ := (wp_handleEvent getwd src ev s).returns
    have hrel : SafePath.safeRel getwd src ev.name = .ok p.str := SafePath.safeRel_below hsrc habs hname
    rw [value, hrun]
    rcases hspec with ⟨-, -, hdot⟩ | ⟨entry, rel, rfl, hsafe, -, hentry, -⟩
    · exact absurd (Path.str_eq_dot.1 (hdot _ hne hrel)) hp
    · rw [hrel] at hsafe
      cases hsafe
      exact ⟨entry, rfl, by rw [hentry, clean_path]⟩

/-- **No event is lost.** In every run of the loop, from a watcher with nothing pending, an
event at a path below the source root is queued at that path. Afterwards it is pending, and
then the timer is set, or a flush that came later has handled everything it stands for,
unless that flush was cut short because the context was done. -/
theorem nothing_lost {root p : Path} {s₀ s : Watching D} {log : List LoopTurn} {i : Nat} {ev : FsEvent}
    {queued : Option PendingEntry} (hsrc : src ≠ []) (habs : filepathAbs getwd src = .ok (absStr root))
    (hrun : Runs (LoopStep getwd src) (fun _ _ => True) s₀ log s) (hstart : s₀.run.syncer.pending = ∅)
    (hlog : log[i]? = some (.event ev queued)) (hne : ev.name ≠ [])
    (hname : filepathAbs getwd ev.name = .ok (absStr (root ++ p))) (hp : p ≠ []) :
    ∃ e, queued = some e ∧ e.rel = p ∧
      ((s.armed = true ∧ ∃ x ∈ pendingEntries s.run.syncer.pending, Serves x e) ∨ FlushedAfter log i e) := by
  have hinv : Accounted log s ∧ Placed getwd root log := by
    apply hrun.inv fun log s => Accounted log s ∧ Placed getwd root log
    · exact ⟨⟨fun h => absurd hstart h, by simp⟩, by simp [Placed]⟩
    · rintro log s turn s' ⟨hacc, hplaced⟩ - hstep
      exact ⟨hacc.step hstep, hplaced.step hsrc habs hstep⟩
  obtain ⟨e, rfl, hrel⟩ := hinv.2 i ev queued p hlog hne hp hname
  refine ⟨e, rfl, hrel, ?_⟩
  rcases hinv.1.queued i ev e hlog with ⟨x, hx, hserves⟩ | hf
  · refine .inl ⟨hinv.1.armed fun hempty => ?_, x, hx, hserves⟩
    rw [hempty] at hx
    cases hx
  · exact .inr hf

end

/-- A watcher over the directory `a` with the file `x`, and nothing pending. -/
def treeWatching : Watching Trees := ⟨freshRun treeWorld [], [], fun _ _ => none, false⟩

/-- The file `a/x` is written. -/
def writeEvent : FsEvent := ⟨absStr [nameB, nameA, nameX], false, false, false⟩

/-- The watcher when it has handled the event. -/
def treeWatching₁ : Watching Trees :=
  { after (handleEvent SafePath.inSrv (absStr [nameB]) writeEvent) treeWatching with armed := true }

/-- The event is handled, and the flush it leads to is not cut short. -/
theorem nothing_lost_write :
    ∃ s, Runs (LoopStep SafePath.inSrv (absStr [nameB])) (fun _ _ => True) treeWatching
      [.event writeEvent (some ⟨[nameA, nameX], false⟩), .flush [⟨[nameA, nameX], false⟩] false] s ∧
    FlushedAfter [.event writeEvent (some ⟨[nameA, nameX], false⟩), .flush [⟨[nameA, nameX], false⟩] false]
      0 ⟨[nameA, nameX], false⟩ := by
  have hqueued : (value (handleEvent SafePath.inSrv (absStr [nameB]) writeEvent) treeWatching).join =
      some ⟨[nameA, nameX], false⟩ := by decide +kernel
  have hdue : treeWatching₁.due = [⟨[nameA, nameX], false⟩] := by decide +kernel
  have hreached : treeWatching₁.reached = 1 := by decide +kernel
  have hevent : LoopStep SafePath.inSrv (absStr [nameB]) treeWatching
      (.event writeEvent (some ⟨[nameA, nameX], false⟩)) treeWatching₁ := hqueued ▸ .event writeEvent
  have hflush : LoopStep SafePath.inSrv (absStr [nameB]) treeWatching₁
      (.flush [⟨[nameA, nameX], false⟩] false)
      { treeWatching₁ with run := after flushPending treeWatching₁.run, armed := false } := by
    have hstep : LoopStep SafePath.inSrv (absStr [nameB]) treeWatching₁ _ _ := .flush rfl
    rw [hdue, hreached] at hstep
    exact hstep
  have hrun : Runs (LoopStep SafePath.inSrv (absStr [nameB])) (fun _ _ => True) treeWatching
      [.event writeEvent (some ⟨[nameA, nameX], false⟩), .flush [⟨[nameA, nameX], false⟩] false]
      { treeWatching₁ with run := after flushPending treeWatching₁.run, armed := false } :=
    .step (.step .start trivial hevent) trivial hflush
  refine ⟨_, hrun, ?_⟩
  obtain ⟨e, he, -, hpending | hflushed⟩ := nothing_lost (i := 0) (p := [nameA, nameX]) (absStr_ne_nil _)
    (SafePath.filepathAbs_absStr [nameB]) hrun rfl rfl (absStr_ne_nil _)
    (SafePath.filepathAbs_absStr [nameB, nameA, nameX]) (by simp)
  · cases hpending.1
  · cases he
    exact hflushed

end Dockerset.Netfin

import Dockerset.Logic.Runs
import Dockerset.Netfin.SqliteRepl
import Mathlib.Data.Prod.Lex
import Mathlib.Logic.Relation
import Mathlib.Order.WellFounded

/-!
# The goroutines of the replicator

`Replicator.Run` starts a goroutine for every database entry of the configuration.
Each looks for databases again and again and starts a goroutine for every new one,
which replicates it and, when that fails, tries again. Any of them can be at any
point while the others go on, every call can have any outcome, and the context can
be cancelled at any time.
-/

namespace Dockerset.Netfin.Replicator
open Go Os Logic

/-- Where `replicatePath` is. `runOnce` is from `stat` to `closing`. -/
inductive WorkerPc where
  | check
  | stat
  | mkdirAll
  | openStore
  /-- `<-ctx.Done()` -/
  | replicating
  | closing
  /-- in `sleepContext` -/
  | sleeping
  | returned
deriving DecidableEq

/-- What the next call brings, or which case of a `select` is taken. -/
inductive WorkerAct where
  /-- `ctx.Err() != nil` -/
  | ctxErr
  | stat (r : Except Errno Kind)
  /-- `filepath.Rel`, for an entry with a directory, and `os.MkdirAll` -/
  | mkdirAll (ok : Bool)
  | openStore (ok : Bool)
  | ctxDone
  /-- `store.Close` returns nil, an error that is ignored, or another -/
  | close (err : Option Bool)
  | timer
deriving DecidableEq

/-- One step of `replicatePath`. -/
def workerStep (cancelled : Bool) : WorkerPc → WorkerAct → Option WorkerPc
  | .check, .ctxErr => some (if cancelled then .returned else .stat)
  | .stat, .stat r => some (if r.toOption = some .file then .mkdirAll else .sleeping)
  | .mkdirAll, .mkdirAll ok => some (if ok then .openStore else .sleeping)
  | .openStore, .openStore ok => some (if ok then .replicating else .sleeping)
  | .replicating, .ctxDone => if cancelled then some .closing else none
  | .closing, .close err => some (if err = some false then .sleeping else .returned)
  | .sleeping, .timer => some .check
  | .sleeping, .ctxDone => if cancelled then some .returned else none
  | _, _ => none

/-- Where `runDBConfig` is. -/
inductive ConfigPc where
  | check
  | discover
  /-- the `select` after a discovery -/
  | waiting
  /-- the deferred `wg.Wait()` -/
  | draining
  | returned
deriving DecidableEq

/-- One entry of the configuration, with the goroutines it has started. -/
structure ConfigState where
  pc : ConfigPc := .check
  known : List Path := []
  workers : List (Path × WorkerPc) := []
deriving DecidableEq

inductive ConfigAct where
  | ctxErr
  /-- `discoverDBPaths` returns paths; an error is only logged. -/
  | discovered (paths : List Path)
  | ticker
  | ctxDone
  | drained
deriving DecidableEq

/-- One turn of the loop over the paths. -/
def ConfigState.note (c : ConfigState) (p : Path) : ConfigState :=
  if c.known.contains p then c
  else { c with known := c.known ++ [p], workers := c.workers ++ [(p, .check)] }

/-- One step of `runDBConfig`. -/
def configStep (cancelled : Bool) (c : ConfigState) (a : ConfigAct) : Option ConfigState :=
  match c.pc, a with
  | .check, .ctxErr => some { c with pc := if cancelled then .draining else .discover }
  | .discover, .discovered paths => some { paths.foldl ConfigState.note c with pc := .waiting }
  | .waiting, .ticker => some { c with pc := .check }
  | .waiting, .ctxDone => if cancelled then some { c with pc := .draining } else none
  | .draining, .drained =>
    if c.workers.all (fun w => w.2 == .returned) then some { c with pc := .returned } else none
  | _, _ => none

/-- Where `Run` is: at its `select`, waiting for `done`, or back. -/
inductive MainPc where
  | select
  | stopping
  | returned (err : Option Err)
deriving DecidableEq

structure State where
  /-- `ctx.Err() != nil` -/
  cancelled : Bool
  configs : List ConfigState
  errCh : List (Option Err)
  main : MainPc
deriving DecidableEq

inductive Act where
  | cancel
  | config (i : Nat) (a : ConfigAct)
  | worker (i j : Nat) (a : WorkerAct)
  | mainDone
  | mainReceives
deriving DecidableEq

/-- `Run` with `n` entries, once it has started their goroutines. -/
def start (n : Nat) : State := ⟨false, List.replicate n {}, [], .select⟩

/-- What `runDBConfig` has sent when it is there. -/
def ConfigPc.sent : ConfigPc → List (Option Err)
  | .returned => [none]
  | _ => []

/-- The error that `Run` returns after `done`. -/
def firstError (errCh : List (Option Err)) : Option Err :=
  errCh.findSome? fun err => if err = some .canceled then none else err

/-- One step of some goroutine. -/
inductive Step : State → Act → State → Prop
  | cancel {s : State} : Step s .cancel { s with cancelled := true }
  | config {s : State} {i : Nat} {a : ConfigAct} {c c' : ConfigState} (hc : s.configs[i]? = some c)
      (h : configStep s.cancelled c a = some c') :
      Step s (.config i a) { s with configs := s.configs.set i c', errCh := s.errCh ++ c'.pc.sent }
  | worker {s : State} {i j : Nat} {a : WorkerAct} {c : ConfigState} {p : Path} {pc pc' : WorkerPc}
      (hc : s.configs[i]? = some c) (hw : c.workers[j]? = some (p, pc))
      (h : workerStep s.cancelled pc a = some pc') :
      Step s (.worker i j a)
        { s with configs := s.configs.set i { c with workers := c.workers.set j (p, pc') } }
  | mainDone {s : State} (hm : s.main = .select) (hctx : s.cancelled = true) :
      Step s .mainDone { s with main := .stopping }
  | mainReceives {s : State} (hm : s.main = .select ∨ s.main = .stopping)
      (hall : ∀ c ∈ s.configs, c.pc = .returned) :
      Step s .mainReceives
        { s with main := .returned (if s.main = .select then firstError s.errCh else none) }

/-- The steps, as a function of who takes them. -/
def State.next (s : State) : Act → Option State
  | .cancel => some { s with cancelled := true }
  | .config i a => do
    let c ← s.configs[i]?
    let c' ← configStep s.cancelled c a
    some { s with configs := s.configs.set i c', errCh := s.errCh ++ c'.pc.sent }
  | .worker i j a => do
    let c ← s.configs[i]?
    let w ← c.workers[j]?
    let pc' ← workerStep s.cancelled w.2 a
    some { s with configs := s.configs.set i { c with workers := c.workers.set j (w.1, pc') } }
  | .mainDone =>
    if s.main = .select ∧ s.cancelled = true then some { s with main := .stopping } else none
  | .mainReceives =>
    if (s.main = .select ∨ s.main = .stopping) ∧ ∀ c ∈ s.configs, c.pc = .returned then
      some { s with main := .returned (if s.main = .select then firstError s.errCh else none) }
    else none

theorem step_of_next {s s' : State} {a : Act} (h : s.next a = some s') : Step s a s' := by
  cases a with
  | cancel =>
    cases h
    exact .cancel
  | config i a =>
    obtain ⟨c, hc, h⟩ := Option.bind_eq_some_iff.1 h
    obtain ⟨c', hc', h⟩ := Option.bind_eq_some_iff.1 h
    cases h
    exact .config hc hc'
  | worker i j a =>
    obtain ⟨c, hc, h⟩ := Option.bind_eq_some_iff.1 h
    obtain ⟨w, hw, h⟩ := Option.bind_eq_some_iff.1 h
    obtain ⟨pc', hpc, h⟩ := Option.bind_eq_some_iff.1 h
    cases h
    exact .worker hc hw hpc
  | mainDone =>
    simp only [State.next, Option.ite_none_right_eq_some] at h
    obtain ⟨⟨hm, hctx⟩, h⟩ := h
    cases h
    exact .mainDone hm hctx
  | mainReceives =>
    simp only [State.next, Option.ite_none_right_eq_some] at h
    obtain ⟨⟨hm, hall⟩, h⟩ := h
    cases h
    exact .mainReceives hm hall

/-! ## One goroutine -/

section Goroutines

variable {cancelled : Bool} {c c' : ConfigState} {a : ConfigAct} {p : Path} {paths : List Path}

theorem ConfigState.note_pc (c : ConfigState) (p : Path) : (c.note p).pc = c.pc := by
  unfold ConfigState.note
  split <;> rfl

theorem ConfigState.mem_note :
    p ∈ (paths.foldl ConfigState.note c).known ↔ p ∈ c.known ∨ p ∈ paths := by
  induction paths generalizing c with
  | nil => simp
  | cons q paths ih =>
    rw [List.foldl_cons, ih, ConfigState.note]
    split
    · next hq =>
      have hmem : q ∈ c.known := List.contains_iff_mem.1 hq
      simp only [List.mem_cons]
      constructor
      · rintro (h | h)
        · exact .inl h
        · exact .inr (.inr h)
      · rintro (h | rfl | h)
        · exact .inl h
        · exact .inl hmem
        · exact .inr h
    · simp [or_assoc]

/-- The goroutines of an entry: one for each known path; before the context is cancelled none
has come to its end, and with the entry's own end all have. -/
structure Sound (cancelled : Bool) (c : ConfigState) : Prop where
  paths : c.workers.map Prod.fst = c.known
  nodup : c.known.Nodup
  live : cancelled = false → c.pc ≠ .draining ∧ c.pc ≠ .returned ∧
    ∀ w ∈ c.workers, w.2 ≠ .closing ∧ w.2 ≠ .returned
  drained : c.pc = .returned → ∀ w ∈ c.workers, w.2 = .returned

theorem Sound.note (h : Sound cancelled c) (hpc : c.pc ≠ .returned) (p : Path) :
    Sound cancelled (c.note p) := by
  unfold ConfigState.note
  split
  · exact h
  · next hp =>
    have hfresh : p ∉ c.known := fun hmem => hp (List.contains_iff_mem.2 hmem)
    refine ⟨by simp [h.paths], ?_, fun hlive => ?_, fun hret => absurd hret hpc⟩
    · exact List.nodup_append'.2 ⟨h.nodup, List.nodup_singleton p, by simpa using hfresh⟩
    · obtain ⟨h1, h2, h3⟩ := h.live hlive
      refine ⟨h1, h2, fun w hw => ?_⟩
      rcases List.mem_append.1 hw with hw | hw
      · exact h3 w hw
      · rw [List.mem_singleton.1 hw]
        exact ⟨by simp, by simp⟩

theorem Sound.notes (h : Sound cancelled c) (hpc : c.pc ≠ .returned) :
    Sound cancelled (paths.foldl ConfigState.note c) := by
  induction paths generalizing c with
  | nil => exact h
  | cons p paths ih =>
    refine ih (h.note hpc p) ?_
    rwa [ConfigState.note_pc]

/-- At another place of the loop, the goroutines being as they were. -/
theorem Sound.at {pc : ConfigPc} (h : Sound cancelled c)
    (hlive : cancelled = false → pc ≠ .draining ∧ pc ≠ .returned)
    (hret : pc = .returned → ∀ w ∈ c.workers, w.2 = .returned) :
    Sound cancelled { c with pc := pc } :=
  ⟨h.paths, h.nodup, fun hl => ⟨(hlive hl).1, (hlive hl).2, (h.live hl).2.2⟩, hret⟩

theorem Sound.config (h : Sound cancelled c) (hs : configStep cancelled c a = some c') :
    Sound cancelled c' ∧ (∀ p ∈ c.known, p ∈ c'.known) ∧
      ∀ paths, a = .discovered paths → ∀ p ∈ paths, p ∈ c'.known := by
  unfold configStep at hs
  split at hs
  · cases hs
    refine ⟨h.at (fun hl => ?_) (fun hret => ?_), fun _ hp => hp, fun _ he => by cases he⟩
    · simp [hl]
    · cases cancelled <;> simp at hret
  · next paths hpc =>
    cases hs
    have hsound : Sound cancelled (paths.foldl ConfigState.note c) := h.notes (by rw [hpc]; simp)
    refine ⟨hsound.at (fun _ => by simp) fun hret => (by cases hret),
      fun p hp => ConfigState.mem_note.2 (.inl hp), fun paths' he p hp => ?_⟩
    cases he
    exact ConfigState.mem_note.2 (.inr hp)
  · cases hs
    exact ⟨h.at (fun _ => by simp) fun hret => (by cases hret), fun _ hp => hp, fun _ he => by cases he⟩
  · split at hs
    · next hctx =>
      cases hs
      exact ⟨h.at (fun hl => by rw [hctx] at hl; cases hl) fun hret => (by cases hret), fun _ hp => hp,
        fun _ he => by cases he⟩
    · cases hs
  · next hpc =>
    split at hs
    · next hall =>
      cases hs
      refine ⟨h.at (fun hl => absurd hpc (h.live hl).1) fun _ w hw => ?_, fun _ hp => hp,
        fun _ he => by cases he⟩
      simpa using List.all_eq_true.1 hall w hw
    · cases hs
  · cases hs

/-- Before the context is cancelled, `replicatePath` does not come to its end. -/
theorem workerStep_live {pc pc' : WorkerPc} {act : WorkerAct} (hs : workerStep false pc act = some pc')
    (hpc : pc ≠ .closing) : pc' ≠ .closing ∧ pc' ≠ .returned := by
  unfold workerStep at hs
  split at hs
  · cases hs
    simp
  · cases hs
    split <;> simp
  · cases hs
    split <;> simp
  · cases hs
    split <;> simp
  · cases hs
  · exact absurd rfl hpc
  · cases hs
    simp
  · cases hs
  · cases hs

/-- A goroutine of the entry takes a step. -/
theorem Sound.worker {j : Nat} {pc pc' : WorkerPc} {act : WorkerAct} (h : Sound cancelled c)
    (hw : c.workers[j]? = some (p, pc)) (hs : workerStep cancelled pc act = some pc') :
    Sound cancelled { c with workers := c.workers.set j (p, pc') } := by
  have hmem : (p, pc) ∈ c.workers := List.mem_of_getElem? hw
  obtain ⟨hj, hget⟩ := List.getElem?_eq_some_iff.1 hw
  refine ⟨?_, h.nodup, fun hl => ?_, fun hret => ?_⟩
  · show (c.workers.set j (p, pc')).map Prod.fst = c.known
    have hsame : (c.workers.map Prod.fst).set j p = c.workers.map Prod.fst := by
      have hp : (c.workers.map Prod.fst)[j]? = some p := by rw [List.getElem?_map, hw]; rfl
      obtain ⟨hj', hp⟩ := List.getElem?_eq_some_iff.1 hp
      rw [← hp, List.set_getElem_self]
    rw [List.map_set, hsame, h.paths]
  · obtain ⟨h1, h2, h3⟩ := h.live hl
    refine ⟨h1, h2, fun w hmemw => ?_⟩
    rcases List.mem_or_eq_of_mem_set hmemw with hold | rfl
    · exact h3 w hold
    · subst hl
      exact workerStep_live hs (h3 _ hmem).1
  · exfalso
    have hend := h.drained hret _ hmem
    rw [show pc = .returned from hend] at hs
    cases act <;> cases hs

end Goroutines

/-! ## All goroutines -/

/-- The replicator after the steps in the log. -/
structure Inv (log : List Act) (s : State) : Prop where
  configs : ∀ c ∈ s.configs, Sound s.cancelled c
  nonempty : s.configs ≠ []
  found : ∀ i paths c, .config i (.discovered paths) ∈ log → s.configs[i]? = some c →
    ∀ p ∈ paths, p ∈ c.known
  sent : ∀ e ∈ s.errCh, e = none
  live : s.cancelled = false → s.main = .select
  ended : ∀ err, s.main = .returned err → err = none ∧ ∀ c ∈ s.configs, c.pc = .returned

section System

variable {log : List Act} {s s' : State} {a : Act} {i : Nat}

theorem configStep_returned {c : ConfigState} {b : Bool} {act : ConfigAct} (h : c.pc = .returned) :
    configStep b c act = none := by
  unfold configStep
  rw [h]

theorem firstError_eq_none {errCh : List (Option Err)} (h : ∀ e ∈ errCh, e = none) :
    firstError errCh = none := by
  refine List.findSome?_eq_none_iff.2 fun e he => ?_
  rw [h e he]
  rfl

/-- One entry has changed, and knows what it knew before. -/
theorem Inv.set {c c' : ConfigState} {act : Act} {errs : List (Option Err)} (h : Inv log s)
    (hc : s.configs[i]? = some c) (hsound : Sound s.cancelled c')
    (hknown : ∀ p ∈ c.known, p ∈ c'.known)
    (hnew : ∀ j paths, act = .config j (.discovered paths) → j = i ∧ ∀ p ∈ paths, p ∈ c'.known)
    (herrs : ∀ e ∈ errs, e = none) (hmain : ∀ err, s.main ≠ .returned err) :
    Inv (log ++ [act]) { s with configs := s.configs.set i c', errCh := s.errCh ++ errs } where
  configs d hd := by
    rcases List.mem_or_eq_of_mem_set hd with hd | rfl
    · exact h.configs d hd
    · exact hsound
  nonempty := by simpa using h.nonempty
  found j paths d hlog hd p hp := by
    have hlt := (List.getElem?_eq_some_iff.1 hc).1
    have hget : (s.configs.set i c')[j]? = some d := hd
    by_cases hij : j = i
    · subst hij
      rw [List.getElem?_set_self hlt] at hget
      cases hget
      rcases List.mem_append.1 hlog with hlog | hlog
      · exact hknown p (h.found j paths c hlog hc p hp)
      · exact (hnew j paths (List.mem_singleton.1 hlog).symm).2 p hp
    · rw [List.getElem?_set_ne (Ne.symm hij)] at hget
      rcases List.mem_append.1 hlog with hlog | hlog
      · exact h.found j paths d hlog hget p hp
      · exact absurd (hnew j paths (List.mem_singleton.1 hlog).symm).1 hij
  sent e he := by
    rcases List.mem_append.1 he with he | he
    · exact h.sent e he
    · exact herrs e he
  live := h.live
  ended err herr := absurd herr (hmain err)

theorem Inv.found_concat (h : Inv log s) (ha : ∀ j paths, a ≠ .config j (.discovered paths))
    (j : Nat) (paths : List Path) (c : ConfigState) (hlog : .config j (.discovered paths) ∈ log ++ [a])
    (hc : s.configs[j]? = some c) : ∀ p ∈ paths, p ∈ c.known := by
  rcases List.mem_append.1 hlog with hlog | hlog
  · exact h.found j paths c hlog hc
  · exact absurd (List.mem_singleton.1 hlog).symm (ha j paths)

theorem Inv.step (h : Inv log s) (hs : Step s a s') : Inv (log ++ [a]) s' := by
  cases hs with
  | cancel =>
    refine ⟨fun c hc => ?_, h.nonempty, h.found_concat (by simp), h.sent,
      fun hl => (by cases hl), h.ended⟩
    obtain ⟨h1, h2, -, h4⟩ := h.configs c hc
    exact ⟨h1, h2, fun hl => (by cases hl), h4⟩
  | @config i act c c' hc hstep =>
    obtain ⟨hsound, hknown, hnew⟩ := (h.configs c (List.mem_of_getElem? hc)).config hstep
    refine h.set hc hsound hknown (fun j paths he => ?_) (fun e he => ?_) fun err herr => ?_
    · obtain ⟨rfl, rfl⟩ := Act.config.inj he
      exact ⟨rfl, hnew paths rfl⟩
    · unfold ConfigPc.sent at he
      split at he
      · exact List.mem_singleton.1 he
      · simp at he
    · rw [configStep_returned ((h.ended err herr).2 c (List.mem_of_getElem? hc))] at hstep
      cases hstep
  | @worker i j act c p pc pc' hc hw hstep =>
    have hsound := h.configs c (List.mem_of_getElem? hc)
    have hmain : ∀ err, s.main ≠ .returned err := by
      intro err herr
      have hend : pc = .returned := hsound.drained ((h.ended err herr).2 c (List.mem_of_getElem? hc)) _
        (List.mem_of_getElem? hw)
      rw [hend] at hstep
      cases act <;> cases hstep
    have hset : Inv (log ++ [.worker i j act])
        { s with
          configs := s.configs.set i { c with workers := c.workers.set j (p, pc') }
          errCh := s.errCh ++ [] } :=
      h.set hc (hsound.worker hw hstep) (fun _ hp => hp) (fun j paths he => by cases he) (by simp) hmain
    rwa [List.append_nil] at hset
  | mainDone hm hctx =>
    refine ⟨h.configs, h.nonempty, h.found_concat (by simp), h.sent, fun hl => ?_,
      fun err herr => by cases herr⟩
    rw [hctx] at hl
    cases hl
  | mainReceives hm hall =>
    refine ⟨h.configs, h.nonempty, h.found_concat (by simp), h.sent, fun hl => ?_, fun err herr => ?_⟩
    · obtain ⟨c, hc⟩ := List.exists_mem_of_ne_nil _ h.nonempty
      exact absurd (hall c hc) ((h.configs c hc).live hl).2.1
    · refine ⟨?_, hall⟩
      cases herr
      split
      · exact firstError_eq_none h.sent
      · rfl

theorem inv_start {n : Nat} (hn : 0 < n) : Inv [] (start n) where
  configs c hc := by
    rw [List.eq_of_mem_replicate hc]
    exact ⟨rfl, List.nodup_nil, fun _ => ⟨by simp, by simp, by simp⟩, by simp⟩
  nonempty := by simpa [start] using hn.ne'
  found := by simp
  sent := by simp [start]
  live _ := rfl
  ended err herr := by cases herr

theorem inv_of_run {n : Nat} (hn : 0 < n) (hrun : Runs Step (fun _ _ => True) (start n) log s) :
    Inv log s :=
  hrun.inv Inv (inv_start hn) fun _ _ _ _ h _ hs => h.step hs

end System

/-- **Every database found is replicated, by one goroutine.** In every run of the replicator, an
entry has one goroutine for each path that it has ever found; until the context is cancelled
none of them returns, and `Run` does not either; and when `Run` returns, it is with nil, the
context is cancelled, and no goroutine is left. -/
theorem supervised {n : Nat} {log : List Act} {s : State} (hn : 0 < n)
    (hrun : Runs Step (fun _ _ => True) (start n) log s) :
    (∀ c ∈ s.configs, (c.workers.map Prod.fst).Nodup) ∧
    (∀ i paths c, .config i (.discovered paths) ∈ log → s.configs[i]? = some c →
      ∀ p ∈ paths, p ∈ c.workers.map Prod.fst) ∧
    (s.cancelled = false → s.main = .select ∧ ∀ c ∈ s.configs, c.pc ≠ .returned ∧
      ∀ w ∈ c.workers, w.2 ≠ .returned) ∧
    ∀ err, s.main = .returned err → err = none ∧ s.cancelled = true ∧
      ∀ c ∈ s.configs, c.pc = .returned ∧ ∀ w ∈ c.workers, w.2 = .returned := by
  have h := inv_of_run hn hrun
  refine ⟨fun c hc => ?_, fun i paths c hlog hc p hp => ?_, fun hl => ⟨h.live hl, fun c hc => ?_⟩,
    fun err herr => ?_⟩
  · rw [(h.configs c hc).paths]
    exact (h.configs c hc).nodup
  · rw [(h.configs c (List.mem_of_getElem? hc)).paths]
    exact h.found i paths c hlog hc p hp
  · obtain ⟨-, h2, h3⟩ := (h.configs c hc).live hl
    exact ⟨h2, fun w hw => (h3 w hw).2⟩
  · obtain ⟨hnil, hall⟩ := h.ended err herr
    refine ⟨hnil, Bool.eq_false_imp_eq_true.1 fun hl => ?_, fun c hc => ⟨hall c hc, ?_⟩⟩
    · rw [h.live hl] at herr
      cases herr
    · exact (h.configs c hc).drained (hall c hc)

def users : Path := [⟨"users.db".toList, by decide⟩]

def posts : Path := [⟨"posts.db".toList, by decide⟩]

/-- Two entries, one of which finds two databases and the other none; one of the goroutines gets
as far as the store, and closing it fails. -/
def shutdownLog : List Act :=
  [.config 0 .ctxErr, .config 1 .ctxErr,
    .config 0 (.discovered [users, posts]), .worker 0 1 .ctxErr,
    .worker 0 1 (.stat (.ok .file)), .worker 0 1 (.mkdirAll true), .worker 0 1 (.openStore true),
    .config 1 (.discovered []), .cancel, .worker 0 0 .ctxErr, .mainDone, .worker 0 1 .ctxDone,
    .worker 0 1 (.close (some false)), .config 0 .ctxDone, .worker 0 1 .ctxDone, .config 0 .drained,
    .config 1 .ctxDone, .config 1 .drained, .mainReceives]

/-- What it comes to. -/
def shutdownEnd : State :=
  ⟨true,
    [⟨.returned, [users, posts], [(users, .returned), (posts, .returned)]⟩, ⟨.returned, [], []⟩],
    [none, none], .returned none⟩

theorem runs_shutdownLog : Runs Step (fun _ _ => True) (start 2) shutdownLog shutdownEnd :=
  runs_of_foldlM (fun _ _ _ => step_of_next) (by decide +kernel)

theorem supervised_shutdown : Runs Step (fun _ _ => True) (start 2) shutdownLog shutdownEnd ∧
    ∀ c ∈ shutdownEnd.configs, c.pc = .returned ∧ ∀ w ∈ c.workers, w.2 = .returned :=
  ⟨runs_shutdownLog, ((supervised Nat.zero_lt_two runs_shutdownLog).2.2.2 none rfl).2.2⟩

/-! ## The end -/

section Shutdown

variable {s s' t : State} {a : Act}

/-- How far a goroutine is from its end, once the context is cancelled. A failed `runOnce` only
leads back to the check of the context. -/
def WorkerPc.rank : WorkerPc → Nat
  | .returned => 0
  | .check => 1
  | .sleeping => 2
  | .closing => 3
  | .replicating => 4
  | .openStore => 5
  | .mkdirAll => 6
  | .stat => 7

def ConfigPc.rank : ConfigPc → Nat
  | .returned => 0
  | .draining => 1
  | .check => 2
  | .waiting => 3
  | .discover => 4

def MainPc.rank : MainPc → Nat
  | .returned _ => 0
  | .stopping => 1
  | .select => 2

def total {α : Type*} (f : α → Nat) (l : List α) : Nat := l.foldr (fun x n => f x + n) 0

def ConfigState.work (c : ConfigState) : Nat := total (fun w => w.2.rank) c.workers

/-- A discovery may start any number of goroutines, so it has to weigh more than all of them. -/
def State.rank (s : State) : Nat ×ₗ Nat :=
  toLex (s.main.rank + total (fun c => c.pc.rank) s.configs, total ConfigState.work s.configs)

theorem total_set {α : Type*} (f : α → Nat) {l : List α} {i : Nat} {x : α} (h : l[i]? = some x)
    (y : α) : total f (l.set i y) + f x = total f l + f y := by
  induction l generalizing i with
  | nil => simp at h
  | cons z l ih =>
    cases i with
    | zero =>
      cases h
      show f y + total f l + f x = f x + total f l + f y
      omega
    | succ i =>
      have hl := ih h
      show f z + total f (l.set i y) + f x = f z + total f l + f y
      omega

theorem workerStep_rank {pc pc' : WorkerPc} {act : WorkerAct}
    (h : workerStep true pc act = some pc') : pc'.rank < pc.rank := by
  cases pc <;> cases act <;> cases h
  case check.ctxErr => exact Nat.zero_lt_one
  case replicating.ctxDone => exact Nat.lt_succ_self 3
  case sleeping.timer => exact Nat.lt_succ_self 1
  case sleeping.ctxDone => exact Nat.zero_lt_two
  all_goals
    split
    all_goals decide

theorem configStep_rank {c c' : ConfigState} {act : ConfigAct}
    (h : configStep true c act = some c') : c'.pc.rank < c.pc.rank := by
  unfold configStep at h
  simp only [if_true] at h
  split at h
  case h_5 hpc =>
    split at h
    · cases h
      simp [hpc, ConfigPc.rank]
    · cases h
  case h_6 => cases h
  all_goals
    next hpc =>
    cases h
    simp [hpc, ConfigPc.rank]

theorem Step.rank_lt (h : Step s a s') (hctx : s.cancelled = true) (ha : a ≠ .cancel) :
    s'.rank < s.rank := by
  rw [State.rank, State.rank, Prod.Lex.toLex_lt_toLex]
  cases h with
  | cancel => exact absurd rfl ha
  | @config i act c c' hc hstep =>
    rw [hctx] at hstep
    have hlt := configStep_rank hstep
    have hsum := total_set (fun c => c.pc.rank) hc c'
    left
    refine Nat.add_lt_add_left ?_ s.main.rank
    show total _ (s.configs.set i c') < _
    omega
  | @worker i j act c p pc pc' hc hw hstep =>
    rw [hctx] at hstep
    have hlt := workerStep_rank hstep
    have hpcs := total_set (fun c => c.pc.rank) hc { c with workers := c.workers.set j (p, pc') }
    have hworks := total_set ConfigState.work hc { c with workers := c.workers.set j (p, pc') }
    have hwork : ConfigState.work { c with workers := c.workers.set j (p, pc') } + pc.rank =
        c.work + pc'.rank := total_set (fun w => w.2.rank) hw (p, pc')
    right
    refine ⟨congrArg (s.main.rank + ·) (Nat.add_right_cancel hpcs), ?_⟩
    show total ConfigState.work (s.configs.set i _) < _
    omega
  | mainDone hm _ =>
    left
    rw [hm]
    exact Nat.add_lt_add_right (Nat.lt_succ_self 1) _
  | mainReceives hm _ =>
    left
    refine Nat.add_lt_add_right ?_ _
    rcases hm with hm | hm
    · rw [hm]
      exact Nat.zero_lt_two
    · rw [hm]
      exact Nat.zero_lt_one

theorem worker_enabled {pc : WorkerPc} (h : pc ≠ .returned) :
    ∃ act pc', workerStep true pc act = some pc' := by
  cases pc with
  | check => exact ⟨.ctxErr, _, rfl⟩
  | stat => exact ⟨.stat (.ok .file), _, rfl⟩
  | mkdirAll => exact ⟨.mkdirAll true, _, rfl⟩
  | openStore => exact ⟨.openStore true, _, rfl⟩
  | replicating => exact ⟨.ctxDone, _, rfl⟩
  | closing => exact ⟨.close none, _, rfl⟩
  | sleeping => exact ⟨.timer, _, rfl⟩
  | returned => exact absurd rfl h

theorem config_enabled {c : ConfigState} (h : c.pc ≠ .returned)
    (hw : c.pc = .draining → ∀ w ∈ c.workers, w.2 = .returned) :
    ∃ act c', configStep true c act = some c' := by
  unfold configStep
  cases hpc : c.pc with
  | check => exact ⟨.ctxErr, _, rfl⟩
  | discover => exact ⟨.discovered [], _, rfl⟩
  | waiting => exact ⟨.ticker, _, rfl⟩
  | draining =>
    have hall : c.workers.all (fun w => w.2 == .returned) = true := by
      rw [List.all_eq_true]
      intro w hmem
      rw [hw hpc w hmem]
      rfl
    exact ⟨.drained, _, if_pos hall⟩
  | returned => exact absurd hpc h

/-- A cancelled replicator is never stuck before `Run` is back: no goroutine waits for another
that waits for it. -/
theorem exists_step (hctx : s.cancelled = true) (hm : ∀ err, s.main ≠ .returned err) :
    ∃ a s', a ≠ .cancel ∧ Step s a s' := by
  by_cases hall : ∀ c ∈ s.configs, c.pc = .returned
  · refine ⟨.mainReceives, _, by simp, .mainReceives ?_ hall⟩
    cases hmain : s.main with
    | select => exact .inl rfl
    | stopping => exact .inr rfl
    | returned err => exact absurd hmain (hm err)
  · push Not at hall
    obtain ⟨c, hc, hpc⟩ := hall
    obtain ⟨i, hi⟩ := List.mem_iff_getElem?.1 hc
    by_cases hw : ∀ w ∈ c.workers, w.2 = .returned
    · obtain ⟨act, c', hstep⟩ := config_enabled hpc fun _ => hw
      rw [← hctx] at hstep
      exact ⟨.config i act, _, by simp, .config hi hstep⟩
    · push Not at hw
      obtain ⟨⟨p, pc⟩, hw, hlive⟩ := hw
      obtain ⟨j, hj⟩ := List.mem_iff_getElem?.1 hw
      obtain ⟨act, pc', hstep⟩ := worker_enabled hlive
      rw [← hctx] at hstep
      exact ⟨.worker i j act, _, by simp, .worker hi hj hstep⟩

theorem Step.cancelled (h : Step s a s') (hctx : s.cancelled = true) : s'.cancelled = true := by
  cases h <;> first | rfl | exact hctx

end Shutdown

/-- A step of a goroutine, `t` being what `s` becomes. -/
def Goes (s t : State) : Prop := ∃ a, a ≠ .cancel ∧ Step s a t

theorem acc_of_cancelled {s : State} (hctx : s.cancelled = true) : Acc (fun t s => Goes s t) s := by
  induction hr : s.rank using WellFoundedLT.induction generalizing s with
  | ind r ih =>
    refine ⟨_, fun t ht => ?_⟩
    obtain ⟨a, ha, hstep⟩ := ht
    exact ih t.rank (hr ▸ hstep.rank_lt hctx ha) (hstep.cancelled hctx) rfl

theorem inv_of_goes {s t : State} (h : ∃ log, Inv log s) (hctx : s.cancelled = true)
    (hst : Relation.ReflTransGen Goes s t) : (∃ log, Inv log t) ∧ t.cancelled = true := by
  induction hst with
  | refl => exact ⟨h, hctx⟩
  | tail _ hgo ih =>
    obtain ⟨a, -, hstep⟩ := hgo
    obtain ⟨⟨log, hinv⟩, hctx'⟩ := ih
    exact ⟨⟨_, hinv.step hstep⟩, hstep.cancelled hctx'⟩

/-- **The replicator stops.** Once the context is cancelled the goroutines cannot go on forever,
whatever the calls they make return and in whatever order they come; and nothing keeps them from
going on until `Run` has returned nil. -/
theorem stops {n : Nat} {log : List Act} {s : State} (hn : 0 < n)
    (hrun : Runs Step (fun _ _ => True) (start n) log s) (hctx : s.cancelled = true) :
    Acc (fun t s => Goes s t) s ∧
    ∀ t, Relation.ReflTransGen Goes s t → (∀ u, ¬ Goes t u) → t.main = .returned none := by
  refine ⟨acc_of_cancelled hctx, fun t hst hstuck => ?_⟩
  obtain ⟨⟨log', hinv⟩, hctx'⟩ := inv_of_goes ⟨log, inv_of_run hn hrun⟩ hctx hst
  cases hm : t.main with
  | returned err => rw [(hinv.ended err hm).1]
  | select =>
    obtain ⟨a, u, ha, hstep⟩ := exists_step hctx' fun err he => by rw [hm] at he; cases he
    exact absurd ⟨a, ha, hstep⟩ (hstuck u)
  | stopping =>
    obtain ⟨a, u, ha, hstep⟩ := exists_step hctx' fun err he => by rw [hm] at he; cases he
    exact absurd ⟨a, ha, hstep⟩ (hstuck u)

/-- The same run when the context has just been cancelled. -/
def shutdownBegin : State :=
  ⟨true,
    [⟨.waiting, [users, posts], [(users, .check), (posts, .replicating)]⟩, ⟨.waiting, [], []⟩],
    [], .select⟩

theorem stops_shutdown : Runs Step (fun _ _ => True) (start 2) (shutdownLog.take 9) shutdownBegin ∧
    ∀ t, Relation.ReflTransGen Goes shutdownBegin t → (∀ u, ¬ Goes t u) →
      t.main = .returned none := by
  have hrun : Runs Step (fun _ _ => True) (start 2) (shutdownLog.take 9) shutdownBegin :=
    runs_of_foldlM (fun _ _ _ => step_of_next) (by decide +kernel)
  exact ⟨hrun, (stops Nat.zero_lt_two hrun rfl).2⟩

end Dockerset.Netfin.Replicator

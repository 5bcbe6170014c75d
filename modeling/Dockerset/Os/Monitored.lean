import Dockerset.Os.Frame

/-!
# A disk that stops a program at a removal

To say what a program knows when it removes something, it is run on a disk that lets
so many calls of `RemoveAll` through and stops the program at the next one: the disk
takes a note of the path (`hit`), and from then on neither a directory can be synced
nor anything removed. Up to that point it is the disk inside.
-/

namespace Dockerset.Os
open Go Logic

structure Monitored (D : Type) where
  disk : D
  /-- how many removals are still let through -/
  skip : Nat
  /-- the removal the program was stopped at -/
  hit : Option Path

variable {D : Type}

/-- The disk inside has changed. -/
def Monitored.put (d : Monitored D) (e : D) : Monitored D := { d with disk := e }

instance [Disk D] : Disk (Monitored D) where
  lstat d l := Disk.lstat d.disk l
  stat d l := Disk.stat d.disk l
  readDir d l := Disk.readDir d.disk l
  openFile d l := Disk.openFile d.disk l
  mkdirAll d l perm now := (Disk.mkdirAll d.disk l perm now).map d.put
  mkdirParent d l perm now := (Disk.mkdirParent d.disk l perm now).map d.put
  touchParent d l now := (Disk.touchParent d.disk l now).map d.put
  install d l f now := (Disk.install d.disk l f now).map d.put
  remove d l now := (Disk.remove d.disk l now).map d.put
  removeAll d l now :=
    if d.hit.isSome then .error Errno.EIO
    else match d.skip with
      | 0 => .ok { d with hit := some l.path }
      | skip + 1 => (Disk.removeAll d.disk l now).map fun e => { d with disk := e, skip := skip }
  openParent d l := if d.hit.isSome then .error Errno.EIO else Disk.openParent d.disk l

/-- The others know nothing of the watch. -/
def Event.monitored (ev : Event D) : Event (Monitored D) :=
  ⟨fun d => d.put (ev.edit d.disk), ev.fault, ev.chunk, ev.torn⟩

/-- The world with a watch that lets `skip` removals through. -/
def World.monitored (w : World D) (skip : Nat) : World (Monitored D) where
  disk := ⟨w.disk, skip, none⟩
  tmp := w.tmp
  umask := w.umask
  pathMax := w.pathMax
  clock := w.clock
  tick := w.tick
  plan := w.plan.map Event.monitored

/-- `A` holds of the disk inside, and the program has been stopped at `h`, if at all. -/
def StoppedAt (A : D → Prop) (h : Option Path) (d : Monitored D) : Prop := d.hit = h ∧ A d.disk

/-- A turn of the others that keeps `A` and the watch, and does not make a call fail with
`ENOENT`: what is missing is missing because it has been removed. -/
def Unnoticed (A : D → Prop) (ev : Event (Monitored D)) : Prop :=
  (∀ d, (ev.edit d).hit = d.hit ∧ (A d.disk → A (ev.edit d).disk)) ∧ ev.fault ≠ some .ENOENT

section

variable {A : D → Prop} {h : Option Path}

theorem Unnoticed.keeps (ev : Event (Monitored D)) (hev : Unnoticed A ev) (d : Monitored D)
    (hd : StoppedAt A h d) : StoppedAt A h (ev.edit d) :=
  ⟨(hev.1 d).1.trans hd.1, (hev.1 d).2 hd.2⟩

theorem heldBy_monitored {w : World D} (hA : Held A w) (hfault : ∀ ev ∈ w.plan, ev.fault ≠ some .ENOENT)
    (skip : Nat) : HeldBy (Unnoticed A) (StoppedAt A none) (w.monitored skip) := by
  refine ⟨⟨rfl, hA.1⟩, fun ev hev => ?_⟩
  obtain ⟨ev₀, hev₀, rfl⟩ := List.mem_map.1 hev
  exact ⟨fun d => ⟨rfl, hA.2 ev₀ hev₀ d.disk⟩, hfault ev₀ hev₀⟩

variable [Disk D]

omit [Disk D] in
theorem stoppedAt_put {x : Except Errno D} {d d' : Monitored D} (hd : StoppedAt A h d)
    (hx : ∀ e, x = .ok e → A e) (hm : x.map d.put = .ok d') : StoppedAt A h d' := by
  cases x with
  | error e => cases hm
  | ok e =>
    cases hm
    exact ⟨hd.1, hx e rfl⟩

theorem writesKeep_stoppedAt {l : Loc} (hA : WritesKeep A l) : WritesKeep (StoppedAt A h) l where
  mkdirAll hd hm := stoppedAt_put hd (fun _ => hA.mkdirAll hd.2) hm
  mkdirParent hd hm := stoppedAt_put hd (fun _ => hA.mkdirParent hd.2) hm
  touchParent hd hm := stoppedAt_put hd (fun _ => hA.touchParent hd.2) hm
  install hd hm := stoppedAt_put hd (fun _ => hA.install hd.2) hm

/-- **`RemoveAll`** goes through, or it is where the program is stopped. -/
theorem monitored_removeAll {l : Loc} (hA : RemovalsKeep A l) {d d' : Monitored D} {now : Time}
    (hd : StoppedAt A h d) (hm : Disk.removeAll d l now = .ok d') :
    StoppedAt A none d' ∨ StoppedAt A (some l.path) d' := by
  simp only [Disk.removeAll] at hm
  split at hm
  · cases hm
  · next hnot =>
    have hnone : d.hit = none := by simpa using hnot
    split at hm
    · cases hm
      exact .inr ⟨rfl, hd.2⟩
    · next skip hskip =>
      cases hx : Disk.removeAll d.disk l now with
      | error e =>
        rw [hx] at hm
        cases hm
      | ok e =>
        rw [hx] at hm
        cases hm
        exact .inl ⟨hnone, hA.removeAll hd.2 hx⟩

/-- A program that has been stopped cannot open a directory to sync it. -/
theorem wp_openParent_stopped {l : Loc} {p : Path} {w : World (Monitored D)}
    (hw : HeldBy (Unnoticed A) (StoppedAt A (some p)) w) :
    WP (openParent l) (fun _ _ => False)
      (fun e w' => (∃ n, e = .errno n ∧ n ≠ .ENOENT) ∧
        HeldBy (Unnoticed A) (StoppedAt A (some p)) w') w := by
  have hturn := hw.turn Unnoticed.keeps
  have hfault : w.turn.1 ≠ some .ENOENT := by
    unfold World.turn
    cases hp : w.plan with
    | nil => simp
    | cons ev plan => exact (hw.2 ev (by simp [hp])).2
  unfold WP
  simp only [openParent, query, syscall, EStateM.run]
  generalize w.turn = t at hturn hfault
  obtain ⟨fault, w₁⟩ := t
  cases fault with
  | some e =>
    refine ⟨⟨e, rfl, fun he => ?_⟩, hturn⟩
    exact hfault (by rw [he])
  | none =>
    have hstop : w₁.disk.hit = some p := hturn.1.1
    have hopen : Disk.openParent w₁.disk l = .error Errno.EIO := by
      simp only [Disk.openParent, hstop]
      rfl
    simp only [hopen]
    exact ⟨⟨_, rfl, by decide⟩, hturn⟩

end

end Dockerset.Os

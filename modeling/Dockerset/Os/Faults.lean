import Dockerset.Os.Rely

/-!
# Programs whose calls fail

Nobody else writes, but any call may be made to fail: the plan holds faults
only (`World.Alone`). What a program knows of the disk and of its temporary file
then stays true from one call to the next, and each fault that strikes is one
fewer to come (`Left`).

A process that is killed makes no further call. That is the plan whose events
from some point on are all faults: such calls change nothing.
-/

namespace Dockerset.Os
open Go Logic

variable {D α : Type}

/-- Nobody else writes. -/
def World.Alone (w : World D) : Prop := ∀ ev ∈ w.plan, ∀ d, ev.edit d = d

/-- How many of the calls to come are made to fail. -/
def World.faults (w : World D) : Nat := w.plan.countP fun ev => ev.fault.isSome

/-- `Φ` of the disk and the temporary file, with `n` faults to come. -/
structure Left (n : Nat) (Φ : D → Option File → Prop) (w : World D) : Prop where
  alone : w.Alone
  faults : w.faults = n
  holds : Φ w.disk w.tmp

/-- The process is killed after the next `n` calls. -/
def World.killedAfter (w : World D) (n k : Nat) : World D :=
  { w with plan := w.plan.take n ++ List.replicate k ⟨id, some Errno.EIO, 0, []⟩ }

theorem World.Alone.killedAfter {w : World D} (h : w.Alone) (n k : Nat) :
    (w.killedAfter n k).Alone := by
  intro ev hev d
  rcases List.mem_append.1 hev with hev | hev
  · exact h ev (List.mem_of_mem_take hev) d
  · rw [List.eq_of_mem_replicate hev]
    rfl

section Rules

variable {n : Nat} {Φ Ψ : D → Option File → Prop} {w w' : World D} {Q : α → World D → Prop}
  {E : Err → World D → Prop}

/-- **One turn**: nothing happens, or the call fails. -/
theorem Left.turn (h : Left n Φ w) : (w.turn.1 = none ∧ Left n Φ w.turn.2) ∨
    ∃ e m, w.turn.1 = some e ∧ n = m + 1 ∧ Left m Φ w.turn.2 := by
  have hfaults := h.faults
  unfold World.faults at hfaults
  unfold World.turn
  cases hp : w.plan with
  | nil => exact .inl ⟨rfl, h⟩
  | cons ev plan =>
    rw [hp, List.countP_cons] at hfaults
    have hedit : ev.edit w.disk = w.disk := h.alone ev (by simp [hp]) w.disk
    have halone : ∀ e ∈ plan, ∀ d, e.edit d = d := fun e he => h.alone e (by simp [hp, he])
    have hleft : ∀ m, plan.countP (fun ev => ev.fault.isSome) = m →
        Left m Φ { w with disk := ev.edit w.disk, plan := plan } := by
      intro m hm
      refine ⟨halone, hm, ?_⟩
      show Φ (ev.edit w.disk) w.tmp
      rw [hedit]
      exact h.holds
    dsimp only
    cases hfault : ev.fault with
    | none =>
      refine .inl ⟨rfl, hleft n ?_⟩
      simpa [hfault] using hfaults
    | some e =>
      refine .inr ⟨e, plan.countP fun ev => ev.fault.isSome, rfl, ?_, hleft _ rfl⟩
      simpa [hfault] using hfaults.symm

theorem Left.act (h : Left n Φ w) (hplan : w'.plan = w.plan)
    (hΨ : Φ w.disk w.tmp → Ψ w'.disk w'.tmp) : Left n Ψ w' := by
  refine ⟨?_, ?_, hΨ h.holds⟩
  · unfold World.Alone
    rw [hplan]
    exact h.alone
  · unfold World.faults
    rw [hplan]
    exact h.faults

theorem Left.mono (h : Left n Φ w) (hΨ : ∀ d t, Φ d t → Ψ d t) : Left n Ψ w :=
  h.act rfl (hΨ _ _)

/-- A call whose outcome is read off a pure result `x`. -/
theorem Left.wp_syscall (h : Left n Φ w) {β : Type} {f : World D → Except Errno (α × World D)}
    {x : World D → Except Errno β} {g : World D → β → α × World D}
    (hf : ∀ w₁, f w₁ = (x w₁).map (g w₁))
    (hok : ∀ w₁ b, Left n Φ w₁ → x w₁ = .ok b → Q (g w₁ b).1 (g w₁ b).2)
    (herr : ∀ w₁ e, Left n Φ w₁ → x w₁ = .error e → E (.errno e) w₁)
    (hfault : ∀ w₁ e m, n = m + 1 → Left m Φ w₁ → E (.errno e) w₁) : WP (syscall f) Q E w := by
  have hturn := h.turn
  unfold WP
  simp only [syscall, EStateM.run]
  generalize w.turn = t at hturn
  obtain ⟨fault, w₁⟩ := t
  rcases hturn with ⟨hnone, hleft⟩ | ⟨e, m, hsome, hn, hleft⟩
  · cases hnone
    dsimp only
    rw [hf]
    cases hx : x w₁ with
    | ok b => exact hok w₁ b hleft hx
    | error e => exact herr w₁ e hleft hx
  · cases hsome
    exact hfault w₁ e m hn hleft

theorem Left.wp_query (h : Left n Φ w) {f : D → Except Errno α}
    (hok : ∀ w₁ a, Left n Φ w₁ → f w₁.disk = .ok a → Q a w₁)
    (herr : ∀ w₁ e, Left n Φ w₁ → f w₁.disk = .error e → E (.errno e) w₁)
    (hfault : ∀ w₁ e m, n = m + 1 → Left m Φ w₁ → E (.errno e) w₁) : WP (query f) Q E w :=
  h.wp_syscall (x := fun w₁ => f w₁.disk) (g := fun w₁ a => (a, w₁)) (fun _ => rfl) hok herr hfault

/-- `chmod`, `chtimes`, `fsync` or `close` of the temporary file. -/
theorem Left.wp_onTemp {Q : Unit → World D → Prop} (h : Left n Φ w) (φ : File → File)
    (hok : ∀ w₁, Left n Φ w₁ → Q () { w₁ with tmp := w₁.tmp.map φ })
    (hfault : ∀ w₁ e m, n = m + 1 → Left m Φ w₁ → E (.errno e) w₁) : WP (onTemp φ) Q E w :=
  h.wp_syscall (x := fun _ => .ok ()) (g := fun w₁ _ => ((), { w₁ with tmp := w₁.tmp.map φ }))
    (fun _ => rfl) (fun w₁ _ h₁ _ => hok w₁ h₁) (fun _ _ _ he => by cases he) hfault

/-- A call that uses the temporary file up: the rename and the removal. -/
theorem Left.wp_takeTemp {Q : Unit → World D → Prop} (h : Left n Φ w)
    {x : World D → File → Except Errno D}
    (hok : ∀ w₁ g d, Left n Φ w₁ → w₁.tmp = some g → x w₁ g = .ok d →
      Q () { w₁ with disk := d, tick := w₁.tick + 1, tmp := none })
    (hnone : ∀ w₁ e, Left n Φ w₁ → w₁.tmp = none → E e w₁)
    (herr : ∀ w₁ g e, Left n Φ w₁ → w₁.tmp = some g → x w₁ g = .error e → E (.errno e) w₁)
    (hfault : ∀ w₁ e m, n = m + 1 → Left m Φ w₁ → E (.errno e) w₁) :
    WP (syscall fun w => match w.tmp with
      | none => .error .ENOENT
      | some g => (x w g).map fun d => ((), { w with disk := d, tick := w.tick + 1, tmp := none }))
      Q E w := by
  let y : World D → Except Errno D := fun w₁ => match w₁.tmp with
    | none => .error .ENOENT
    | some g => x w₁ g
  refine h.wp_syscall (x := y)
    (g := fun w₁ d => ((), { w₁ with disk := d, tick := w₁.tick + 1, tmp := none }))
    (fun w₁ => ?_) (fun w₁ d h₁ hy => ?_) (fun w₁ e h₁ hy => ?_) hfault
  · simp only [y]
    cases w₁.tmp <;> rfl
  · cases htmp : w₁.tmp with
    | none => simp [y, htmp] at hy
    | some g =>
      simp only [y, htmp] at hy
      exact hok w₁ g d h₁ htmp hy
  · cases htmp : w₁.tmp with
    | none => exact hnone w₁ _ h₁ htmp
    | some g =>
      simp only [y, htmp] at hy
      exact herr w₁ g e h₁ htmp hy

variable [Disk D]

/-- **`io.Copy`** from a file that stays what it was when it was opened: all of it
is read, unless a read fails. -/
theorem Left.wp_ioCopy {l : Loc} {f : File} (h : Left n Φ w)
    (hopen : ∀ d t, Φ d t → Disk.openFile d l = .ok (some f)) :
    WP (ioCopy ⟨l, some f⟩)
      (fun _ w' => ∃ w₁, Left n Φ w₁ ∧
        w' = { w₁ with tmp := w₁.tmp.map fun g => { g with content := f.content } })
      (fun _ w' => ∃ m, n = m + 1 ∧ Left m Φ w') w := by
  have hturn : ∀ {w₁ : World D} {ev plan}, w₁.plan = ev :: plan →
      w₁.turn = (ev.fault, { w₁ with disk := ev.edit w₁.disk, plan := plan }) := by
    intro w₁ ev plan hp
    rw [World.turn, hp]
  have hread : ∀ (d : D) t (off : Nat) (ev : Event D), Φ d t →
      Handle.readAt ⟨l, some f⟩ d off ev = (f.content.drop off).take (ev.chunk + 1) := by
    intro d t off ev hd
    simp only [Handle.readAt, Handle.fresh, hopen d t hd, if_true]
  -- what has been read so far is a beginning of the content
  have hwp := wp_ioCopy_faults (w := w) (h := ⟨l, some f⟩)
    (J := fun buf w₁ => Left n Φ w₁ ∧ buf <+: f.content)
    (B := fun bytes w₁ => Left n Φ w₁ ∧ bytes = f.content)
    (F := fun w₁ => ∃ m, n = m + 1 ∧ Left m Φ w₁) ⟨h, List.nil_prefix⟩ ?_ ?_ ?_
  · refine hwp.mono ?_ fun _ w' he => he.resolve_left fun hc => by cases hc.1
    rintro _ w' ⟨bytes, w₁, ⟨h₁, rfl⟩, rfl⟩
    exact ⟨w₁, h₁, rfl⟩
  · rintro buf w₁ ev plan hp ⟨h₁, -⟩ hfault
    have hcase := h₁.turn
    rw [hturn hp] at hcase
    rcases hcase with ⟨hnone, -⟩ | ⟨e, m, -, hn, hleft⟩
    · exact absurd hnone hfault
    · exact ⟨m, hn, hleft⟩
  · rintro buf w₁ ev plan hp ⟨h₁, hbuf⟩ hfault
    have hcase := h₁.turn
    rw [hturn hp] at hcase
    have hleft := (hcase.resolve_right (by rintro ⟨e, m, hsome, -⟩; rw [hfault] at hsome; cases hsome)).2
    unfold Reading
    rw [hread _ _ _ ev hleft.holds]
    obtain ⟨rest, hrest⟩ := hbuf
    refine ⟨fun hnil => ⟨hleft, ?_⟩, fun _ => ⟨hleft, ?_⟩⟩
    · have hdone := (List.take_eq_nil_iff.1 hnil).resolve_left (by omega)
      rw [← hrest, List.drop_left] at hdone
      rw [← hrest, hdone, List.append_nil]
    · rw [← hrest, List.drop_left]
      exact (List.prefix_append_right_inj buf).2 (List.take_prefix _ _)
  · rintro buf w₁ hp ⟨h₁, rest, hrest⟩
    refine ⟨h₁, ?_⟩
    simp only [Handle.rest, hopen _ _ h₁.holds]
    rw [← hrest, List.drop_left]

end Rules

/-! ## One failure that leaves something behind -/

/-- `n` calls go well, and the next one fails with `e` after it has done `edit`. -/
def World.FailsAfter (w : World D) (n : Nat) (edit : D → D) (e : Errno) (rest : List (Event D)) : Prop :=
  w.plan = List.replicate n ⟨id, none, 0, []⟩ ++ ⟨edit, some e, 0, []⟩ :: rest

section FailsAfter

variable {n : Nat} {edit : D → D} {e : Errno} {rest : List (Event D)} {w : World D}
  {Q : α → World D → Prop} {E : Err → World D → Prop}

/-- A call whose outcome is read off a pure result `x`. -/
theorem World.FailsAfter.wp_syscall (h : w.FailsAfter n edit e rest) {β : Type}
    {f : World D → Except Errno (α × World D)} {x : World D → Except Errno β}
    {g : World D → β → α × World D} (hf : ∀ w₁, f w₁ = (x w₁).map (g w₁))
    (hfault : n = 0 → E (.errno e) { w with disk := edit w.disk, plan := rest })
    (hok : ∀ w₁ m b, n = m + 1 → w₁.FailsAfter m edit e rest → w₁.disk = w.disk → x w₁ = .ok b →
      Q (g w₁ b).1 (g w₁ b).2)
    (herr : ∀ w₁ m e', n = m + 1 → w₁.FailsAfter m edit e rest → w₁.disk = w.disk →
      x w₁ = .error e' → E (.errno e') w₁) : WP (syscall f) Q E w := by
  unfold World.FailsAfter at h
  cases n with
  | zero =>
    have hturn : w.turn = (some e, { w with disk := edit w.disk, plan := rest }) := by
      rw [World.turn, h]
      rfl
    unfold WP
    simp only [syscall, EStateM.run, hturn]
    exact hfault rfl
  | succ m =>
    rw [List.replicate_succ, List.cons_append] at h
    let w₁ : World D := { w with plan := List.replicate m ⟨id, none, 0, []⟩ ++ ⟨edit, some e, 0, []⟩ :: rest }
    have hturn : w.turn = (none, w₁) := by
      rw [World.turn, h]
      rfl
    unfold WP
    simp only [syscall, EStateM.run, hturn]
    rw [hf]
    cases hx : x w₁ with
    | ok b => exact hok w₁ m b rfl rfl rfl hx
    | error e' => exact herr w₁ m e' rfl rfl rfl hx

theorem World.FailsAfter.wp_query (h : w.FailsAfter n edit e rest) {f : D → Except Errno α}
    (hfault : n = 0 → E (.errno e) { w with disk := edit w.disk, plan := rest })
    (hok : ∀ w₁ m a, n = m + 1 → w₁.FailsAfter m edit e rest → w₁.disk = w.disk → f w.disk = .ok a →
      Q a w₁)
    (herr : ∀ w₁ m e', n = m + 1 → w₁.FailsAfter m edit e rest → w₁.disk = w.disk →
      f w.disk = .error e' → E (.errno e') w₁) : WP (query f) Q E w :=
  h.wp_syscall (x := fun w₁ => f w₁.disk) (g := fun w₁ a => (a, w₁)) (fun _ => rfl) hfault
    (fun w₁ m a hn h₁ hd hx => hok w₁ m a hn h₁ hd (hd ▸ hx))
    fun w₁ m e' hn h₁ hd hx => herr w₁ m e' hn h₁ hd (hd ▸ hx)

end FailsAfter

end Dockerset.Os

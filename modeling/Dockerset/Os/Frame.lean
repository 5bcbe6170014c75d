import Dockerset.Os.Rely

/-!
# Programs that write below one root

A property of the disk that the calls on the destination keep (`DstKeeps`), and
that the turns of the others keep, survives every program that writes to the
destination only, whichever of its calls fail. Where it matters which paths a
program works on, or that it removes nothing, the calls at one place are told
apart (`WritesKeep`, `RemovalsKeep`). The rules here are about the single calls;
a program's rule is put together from them.
-/

namespace Dockerset.Os
open Go Logic

section

variable {D : Type} [Disk D]

/-- The calls on the destination keep `I`. -/
structure DstKeeps (I : D → Prop) : Prop where
  mkdirAll : ∀ {d d' l perm now}, l.side = .dst → I d → Disk.mkdirAll d l perm now = .ok d' → I d'
  mkdirParent : ∀ {d d' l perm now}, l.side = .dst → I d → Disk.mkdirParent d l perm now = .ok d' → I d'
  touchParent : ∀ {d d' l now}, l.side = .dst → I d → Disk.touchParent d l now = .ok d' → I d'
  install : ∀ {d d' l f now}, l.side = .dst → I d → Disk.install d l f now = .ok d' → I d'
  remove : ∀ {d d' l now}, l.side = .dst → I d → Disk.remove d l now = .ok d' → I d'
  removeAll : ∀ {d d' l now}, l.side = .dst → I d → Disk.removeAll d l now = .ok d' → I d'

/-- The calls that make or replace something at `l` keep `I`. -/
structure WritesKeep (I : D → Prop) (l : Loc) : Prop where
  mkdirAll : ∀ {d d' perm now}, I d → Disk.mkdirAll d l perm now = .ok d' → I d'
  mkdirParent : ∀ {d d' perm now}, I d → Disk.mkdirParent d l perm now = .ok d' → I d'
  touchParent : ∀ {d d' now}, I d → Disk.touchParent d l now = .ok d' → I d'
  install : ∀ {d d' f now}, I d → Disk.install d l f now = .ok d' → I d'

/-- The calls that remove something at `l` keep `I`. -/
structure RemovalsKeep (I : D → Prop) (l : Loc) : Prop where
  remove : ∀ {d d' now}, I d → Disk.remove d l now = .ok d' → I d'
  removeAll : ∀ {d d' now}, I d → Disk.removeAll d l now = .ok d' → I d'

theorem DstKeeps.writes {I : D → Prop} (h : DstKeeps I) {l : Loc} (hl : l.side = .dst) :
    WritesKeep I l :=
  ⟨h.mkdirAll hl, h.mkdirParent hl, h.touchParent hl, h.install hl⟩

theorem DstKeeps.removals {I : D → Prop} (h : DstKeeps I) {l : Loc} (hl : l.side = .dst) :
    RemovalsKeep I l :=
  ⟨h.remove hl, h.removeAll hl⟩

end

/-- `I` holds of the disk, and the turns that are still to come keep it. -/
def Held {D : Type} (I : D → Prop) (w : World D) : Prop :=
  I w.disk ∧ ∀ ev ∈ w.plan, ∀ d, I d → I (ev.edit d)

/-- `I` holds of the disk, and the turns that are still to come are all in `C`. -/
def HeldBy {D : Type} (C : Event D → Prop) (I : D → Prop) (w : World D) : Prop :=
  I w.disk ∧ ∀ ev ∈ w.plan, C ev

section Calls

variable {D α : Type} {C : Event D → Prop} {I : D → Prop} {w : World D}
  (hC : ∀ ev, C ev → ∀ d, I d → I (ev.edit d))
include hC

theorem HeldBy.turn (h : HeldBy C I w) : HeldBy C I w.turn.2 := by
  unfold World.turn
  cases hp : w.plan with
  | nil => exact h
  | cons ev plan =>
    obtain ⟨hd, hplan⟩ := h
    rw [hp] at hplan
    exact ⟨hC ev (hplan ev List.mem_cons_self) _ hd, fun e he => hplan e (List.mem_cons_of_mem _ he)⟩

theorem held_syscall {f : World D → Except Errno (α × World D)}
    (hf : ∀ w a w', HeldBy C I w → f w = .ok (a, w') → HeldBy C I w') : Preserves (HeldBy C I) (syscall f) := by
  intro w h
  have hturn := h.turn hC
  unfold WP
  simp only [syscall, EStateM.run]
  generalize w.turn = t at hturn
  obtain ⟨fault, w₁⟩ := t
  cases fault with
  | some e => exact hturn
  | none =>
    cases hx : f w₁ with
    | error e =>
      simp only [hx]
      exact hturn
    | ok r =>
      simp only [hx]
      exact hf w₁ r.1 r.2 hturn hx

/-- What a look returns is true of some disk in between. -/
theorem wp_query_held (g : D → Except Errno α) (h : HeldBy C I w) :
    WP (query g) (fun a w' => HeldBy C I w' ∧ ∃ d, I d ∧ g d = .ok a) (fun _ => HeldBy C I) w := by
  have hturn := h.turn hC
  unfold WP
  simp only [query, syscall, EStateM.run]
  generalize w.turn = t at hturn
  obtain ⟨fault, w₁⟩ := t
  cases fault with
  | some e => exact hturn
  | none =>
    cases hg : g w₁.disk with
    | error e =>
      simp only [hg, Except.map]
      exact hturn
    | ok a =>
      simp only [hg, Except.map]
      exact ⟨hturn, w₁.disk, hturn.1, hg⟩

theorem held_query (g : D → Except Errno α) : Preserves (HeldBy C I) (query g) := fun _ h =>
  (wp_query_held hC g h).mono (fun _ _ h' => h'.1) fun _ _ h' => h'

/-- A change after which `I'` holds. -/
theorem wp_change_held {I' : D → Prop} {f : D → Time → Except Errno D}
    (hf : ∀ d d' now, I d → f d now = .ok d' → I' d') (h : HeldBy C I w) :
    WP (change f) (fun _ => HeldBy C I') (fun _ => HeldBy C I) w := by
  have hturn := h.turn hC
  unfold WP
  simp only [change, syscall, EStateM.run]
  generalize w.turn = t at hturn
  obtain ⟨fault, w₁⟩ := t
  cases fault with
  | some e => exact hturn
  | none =>
    cases hx : f w₁.disk (w₁.clock w₁.tick) with
    | error e =>
      simp only [hx, Except.map]
      exact hturn
    | ok d =>
      simp only [hx, Except.map]
      exact ⟨hf _ d _ hturn.1 hx, hturn.2⟩

theorem held_pollCtx : Preserves (HeldBy C I) (pollCtx : Sys D Unit) := by
  intro w h
  have hturn := h.turn hC
  unfold WP
  simp only [pollCtx, EStateM.run]
  generalize w.turn = t at hturn
  obtain ⟨fault, w₁⟩ := t
  cases fault <;> exact hturn

/-- A call that sets the disk to the result of `x`. -/
theorem held_write {x : World D → Except Errno D} {g : World D → D → World D}
    (hg : ∀ w d, (g w d).disk = d ∧ (g w d).plan = w.plan)
    (hx : ∀ w d, I w.disk → x w = .ok d → I d) :
    Preserves (HeldBy C I) (syscall fun w => (x w).map fun d => ((), g w d)) := by
  refine held_syscall hC fun w a w' h he => ?_
  cases hd : x w with
  | error e => simp [hd, Except.map] at he
  | ok d =>
    simp only [hd, Except.map, Except.ok.injEq, Prod.mk.injEq, true_and] at he
    rw [← he, HeldBy, (hg w d).1, (hg w d).2]
    exact ⟨hx w d h.1 hd, h.2⟩

omit hC in
theorem held_deferring {x : Sys D α} {c : Sys D Unit} (hx : Preserves (HeldBy C I) x)
    (hc : Preserves (HeldBy C I) c) : Preserves (HeldBy C I) (deferring x c) := by
  intro w h
  rw [wp_deferring_iff]
  exact (hx w h).mono (fun _ _ h' => hc.after h') fun _ _ h' => hc.after h'

theorem held_onTemp (f : File → File) : Preserves (HeldBy C I) (onTemp f : Sys D Unit) := by
  refine held_syscall hC fun w a w' h he => ?_
  cases he
  exact h

variable [Disk D] {l : Loc}

/-- A copy takes turns, and changes nothing on the disk. -/
theorem held_copyChunks (h : Handle) (plan : List (Event D)) : ∀ (w : World D) (buf : List UInt8),
    I w.disk → (∀ ev ∈ plan, C ev) →
    (∀ bytes w', copyChunks h w buf plan = .ok bytes w' → HeldBy C I w') ∧
      ∀ e w', copyChunks h w buf plan = .error e w' → HeldBy C I w' := by
  induction plan with
  | nil =>
    intro w buf hd _
    refine ⟨fun bytes w' he => ?_, fun e w' he => ?_⟩
    · cases he
      exact ⟨hd, fun ev hev => absurd hev List.not_mem_nil⟩
    · cases he
  | cons ev plan ih =>
    intro w buf hd hplan
    have hedit : I (ev.edit w.disk) := hC ev (hplan ev List.mem_cons_self) _ hd
    have hrest : ∀ e ∈ plan, C e := fun e he => hplan e (List.mem_cons_of_mem _ he)
    unfold copyChunks
    dsimp only
    cases ev.fault with
    | some e =>
      refine ⟨fun bytes w' he => ?_, fun e w' he => ?_⟩
      · cases he
      · cases he
        exact ⟨hedit, hrest⟩
    | none =>
      dsimp only
      split
      · refine ⟨fun bytes w' he => ?_, fun e w' he => ?_⟩
        · cases he
          exact ⟨hedit, hrest⟩
        · cases he
      · exact ih _ _ hedit hrest

theorem held_ioCopy (h : Handle) : Preserves (HeldBy C I) (ioCopy h : Sys D Unit) := by
  intro w hw
  have hcopy := held_copyChunks hC h w.plan w [] hw.1 hw.2
  unfold WP
  simp only [ioCopy, EStateM.run]
  cases h.file with
  | none => exact hw
  | some f =>
    dsimp only
    cases hc : copyChunks h w [] w.plan with
    | ok bytes w' => exact hcopy.1 bytes w' hc
    | error e w' => exact hcopy.2 e w' hc

section Write

variable (hI : WritesKeep I l)
include hI

theorem held_mkdirAll (perm : Perm) : Preserves (HeldBy C I) (mkdirAll l perm : Sys D Unit) :=
  held_write hC (fun _ _ => ⟨rfl, rfl⟩) fun _ _ hd he => hI.mkdirAll hd he

theorem held_mkdirParent (perm : Perm) : Preserves (HeldBy C I) (mkdirParent l perm : Sys D Unit) :=
  held_write hC (fun _ _ => ⟨rfl, rfl⟩) fun _ _ hd he => hI.mkdirParent hd he

theorem held_createTemp : Preserves (HeldBy C I) (createTemp l : Sys D Unit) :=
  held_write hC (fun _ _ => ⟨rfl, rfl⟩) fun _ _ hd he => hI.touchParent hd he

omit [Disk D] hI in
theorem held_takeTemp {x : World D → File → Except Errno D}
    (hx : ∀ w f d, I w.disk → x w f = .ok d → I d) :
    Preserves (HeldBy C I) (syscall fun w => match w.tmp with
      | none => .error .ENOENT
      | some f => (x w f).map fun d =>
        ((), { w with disk := d, tick := w.tick + 1, tmp := none })) := by
  refine held_syscall hC fun w a w' h he => ?_
  cases ht : w.tmp with
  | none => simp [ht] at he
  | some f =>
    simp only [ht] at he
    cases hd : x w f with
    | error e => simp [hd, Except.map] at he
    | ok d =>
      simp only [hd, Except.map, Except.ok.injEq, Prod.mk.injEq, true_and] at he
      rw [← he]
      exact ⟨hx w f d h.1 hd, h.2⟩

theorem held_rename : Preserves (HeldBy C I) (rename l : Sys D Unit) :=
  held_takeTemp hC fun _ _ _ hd he => hI.install hd he

theorem held_removeTemp : Preserves (HeldBy C I) (removeTemp l : Sys D Unit) :=
  held_takeTemp hC fun _ _ _ hd he => hI.touchParent hd he

end Write

theorem held_remove (hI : RemovalsKeep I l) : Preserves (HeldBy C I) (remove l : Sys D Unit) :=
  held_write hC (fun _ _ => ⟨rfl, rfl⟩) fun _ _ hd he => hI.remove hd he

theorem held_removeAll (hI : RemovalsKeep I l) : Preserves (HeldBy C I) (removeAll l : Sys D Unit) :=
  held_write hC (fun _ _ => ⟨rfl, rfl⟩) fun _ _ hd he => hI.removeAll hd he

end Calls

end Dockerset.Os

import Dockerset.Netfin.StepInv

/-!
# Backups of what can no longer be mirrored

A remembered path may turn into a link or a special file. `SyncRel` on it and
`SyncTree` on a directory above it then drop its backup. `Reconcile` drops it
unless its walk comes by a special file: that counts as seen and is left alone.

The state map is pruned below what is removed from the destination, so nothing
below the path is remembered either, as long as the destination has every
remembered path (`Present`).
-/

namespace Dockerset.Netfin
open Go Os Logic

/-- The destination has every remembered path, and the root is not remembered. -/
structure Present (t : Tree) (m : StateMap) : Prop where
  root : m.lookup [] = none
  has : ∀ q, m.lookup q ≠ none → t.Has q

section

variable {S : Tree} {T : Set Time} {U : Perm} {rm : Bool} {p q : Path} {t t' : Tree} {m m' : StateMap}
  {A : Path → Prop}

theorem present_iff : Present t m ↔ Vouched (fun t q _ => t.Has q) t m := by
  refine ⟨fun h => ⟨h.root, fun q st hq => h.has q (by simp [hq])⟩, fun h => ⟨h.root, fun q hq => ?_⟩⟩
  obtain ⟨st, hst⟩ := Option.ne_none_iff_exists'.1 hq
  exact h.holds q st hst

theorem steadfast_has : Steadfast fun t q _ => t.Has q := by
  intro t t' q st hs h
  rw [Tree.has_iff_shape, hs h, ← Tree.has_iff_shape]
  exact h

theorem Swept.present (hs : Swept T A t t' m m') (h : Present t m) : Present t' m' :=
  present_iff.2 (hs.vouched steadfast_has (present_iff.1 h))

theorem Grown.present (hg : Grown t t') (h : Present t m) : Present t' m :=
  present_iff.2 (hg.vouched steadfast_has (present_iff.1 h))

theorem Touch.present (ht : Touch S T U rm q t m t' m') (hq : q ≠ []) (h : Present t m) :
    Present t' m' := by
  refine present_iff.2 (ht.vouched steadfast_has hq (present_iff.1 h) ?_ ?_ ?_)
  · exact fun a _ hmade => (hmade.isDir List.prefix_rfl).has
  · intro f _ hr
    obtain ⟨n, hn, -⟩ := reports_iff.1 hr
    exact Tree.has_of_get hn
  · exact fun f _ hg => Tree.has_of_get hg

theorem stepInv_present (T : Set Time) : StepInv T Unasked Present where
  touch ht hq _ h := ht.present hq h
  swept hs h := hs.present h

/-- There is no backup at `p`, and nothing at or below it is remembered. -/
def Gone (p : Path) (r : Run Trees) : Prop :=
  ¬ r.dst.Has p ∧ ∀ q, p <+: q → r.state.lookup q = none

theorem Swept.clears (hs : Swept T A t t' m m') (h : Present t m) {d : Path} (hd : A d)
    (hdp : d <+: p) : ¬ t'.Has p ∧ ∀ q, p <+: q → m'.lookup q = none := by
  refine ⟨fun hhas => Tree.shape_ne_none.2 hhas (hs.gone d p hd hdp), fun q hpq => ?_⟩
  by_cases hm : m.lookup q = none
  · exact hs.lookup_none hm
  · exact hs.forgot d q hd (hdp.trans hpq) (h.has q hm)

end

section

variable {r r' : Run Trees} {p q : Path}

/-- A known path that is to be dropped, or a path below it. -/
theorem Dropped.gone (h : Dropped q r r') (hpr : Present r.dst r.state) (hqp : q <+: p)
    (hknown : r.state.lookup p ≠ none) : Gone p r' := by
  rcases h with ⟨hno, -⟩ | ⟨-, t, n, m, rfl, hsw⟩
  · exact absurd (hno p hqp) hknown
  · exact hsw.clears hpr rfl hqp

/-- **`SyncRel`** on a path that has become a link or a special file. -/
theorem RelEnd.gone (h : RelEnd p r r') (hpr : Present r.dst r.state)
    (hknown : r.state.lookup p ≠ none)
    (hk : r.src.kind p = some .symlink ∨ r.src.kind p = some .special) : Gone p r' := by
  have horder : orderFor r.src r.syncer.excluder.excluded p = .drop := by
    obtain ⟨n, hn⟩ := Tree.has_iff.1 (hk.elim Tree.has_of_kind Tree.has_of_kind)
    rw [Tree.kind_of_get hn] at hk
    unfold orderFor
    split
    · rfl
    · rw [hn]
      cases n <;> simp at hk ⊢
  rw [RelEnd, horder] at h
  exact Dropped.gone h hpr List.prefix_rfl hknown

/-- The pass of `SyncTree` above such a path: a special file that it comes by is
dropped at once, everything else is left to the sweep. -/
theorem FullPass.gone {seen : List Path} {t₁ t : Tree} {m₁ m : StateMap}
    (h : FullPass r.src true q r seen t₁ m₁) (hsw : Swept r.times (Unseen m₁ q seen) t₁ t m₁ m)
    (hpr : Present r.dst r.state) (hqp : q <+: p) (hknown : r.state.lookup p ≠ none)
    (hk : r.src.kind p = some .symlink ∨ r.src.kind p = some .special) :
    ¬ t.Has p ∧ ∀ x, p <+: x → m.lookup x = none := by
  have hpr₁ : Present t₁ m₁ := (stepInv_present _).under.pass h.1 (fun _ _ _ _ => trivial) hpr
  by_cases hseen : p ∈ seen
  · have hdone := h.1.done hseen
    obtain ⟨n, hn, hns⟩ := ((h.2 p).1 hseen).node
    rw [Tree.kind_of_get hn] at hk
    obtain ⟨a, rfl⟩ : ∃ a, n = .special a := by
      cases n with
      | special a => exact ⟨a, rfl⟩
      | _ => simp at hk hns
    rw [Done, hn] at hdone
    have hnone : ¬ t₁.Has p := Tree.not_has_iff.2 hdone.1
    refine ⟨fun hhas => ?_, fun x hpx => ?_⟩
    · exact Tree.shape_ne_none.2 hhas (hsw.shape_none (Tree.shape_eq_none.2 hdone.1))
    · apply hsw.lookup_none
      by_contra hm
      exact hnone (Tree.has_of_isPrefix (hpr₁.has x hm) hpx)
  · have hnc : ¬ Cleared r.src true seen p := by
      rintro ⟨y, hy, -, hky, hyp⟩
      have hhas : r.src.Has p := hk.elim Tree.has_of_kind Tree.has_of_kind
      exact hseen (Tree.eq_of_leaf hky (by decide) hhas hyp ▸ hy)
    have hknown₁ : m₁.lookup p ≠ none := by
      rw [h.1.state_frame hseen hnc]
      exact hknown
    exact hsw.clears hpr₁ ⟨hqp, hseen, hknown₁⟩ List.prefix_rfl

/-- **`SyncTree`** on a directory above such a path. -/
theorem TreeEnd.gone (h : TreeEnd q r r') (hpr : Present r.dst r.state) (hqp : q <+: p) (hne : q ≠ p)
    (hknown : r.state.lookup p ≠ none)
    (hk : r.src.kind p = some .symlink ∨ r.src.kind p = some .special) : Gone p r' := by
  have hhas : r.src.Has p := hk.elim Tree.has_of_kind Tree.has_of_kind
  obtain ⟨a, ha⟩ := Tree.isDir_iff.1 (Tree.isDir_of_above hhas hqp hne)
  unfold TreeEnd at h
  cases hex : r.syncer.excluder.excluded q with
  | true =>
    have horder : orderFor r.src r.syncer.excluder.excluded q = .drop := by rw [orderFor, if_pos hex]
    rw [horder] at h
    unfold RelEnd at h
    rw [horder] at h
    exact Dropped.gone h hpr hqp hknown
  | false =>
    have horder : orderFor r.src r.syncer.excluder.excluded q = .dir (a.info .dir) := by
      simp [orderFor, hex, ha]
    rw [horder] at h
    obtain ⟨seen, t₁, m₁, t, n, m, hfull, hsw, rfl⟩ := h
    exact hfull.gone hsw hpr hqp hknown hk

/-- A call with any outcome, no `SyncRel` on another spelling of the root. -/
structure RootedStep (c : Call) (r r' : Run Trees) : Prop where
  root : c.AvoidsRoot
  run : after c.exec r = r'

theorem RootedStep.follows_present {c : Call} (h : RootedStep c r r') (hr : r.Quiet)
    (hpr : Present r.dst r.state) : Follows r r' ∧ Present r'.dst r'.state := by
  obtain ⟨hroot, rfl⟩ := h
  exact (stepInv_present r.times).under.after_call (fun hg h => hg.present h) ⟨hr, hpr.root⟩ hroot
    r.meets_unasked hpr

/-- What holds along such histories. -/
structure RootedState (r : Run Trees) : Prop where
  quiet : r.Quiet
  present : Present r.dst r.state
  linkFree : r.dst.LinkFree

theorem RootedStep.keeps {c : Call} (h : RootedStep c r r') (hr : RootedState r) : RootedState r' := by
  obtain ⟨hf, hpr⟩ := h.follows_present hr.quiet hr.present
  obtain ⟨hroot, rfl⟩ := h
  obtain ⟨-, hl⟩ := (stepInv_linkFree r.times).under.after_call (fun hg h => hg.linkFree h)
    ⟨hr.quiet, hr.present.root⟩ hroot r.meets_unasked hr.linkFree
  exact ⟨hf.quiet hr.quiet, hpr, hl⟩

end

end Dockerset.Netfin

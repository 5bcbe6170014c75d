import Dockerset.Netfin.History

/-!
# The light reconcile against the deep one

A light `Reconcile` removes what the state map remembers, a deep one what the
destination has. They leave the same paths when the state map remembers every
path of the destination (`Tracked`). Calls keep that, except where a copy makes
the directories above its path without remembering them.
-/

namespace Dockerset.Netfin
open Go Os Logic

/-- If the call backs up its path, the paths above are remembered. -/
def Call.AboveRemembered (r : Run Trees) : Call → Prop
  | .reconcile => True
  | .rel s | .tree s => ∀ p, Names s p → r.syncer.excluder.excluded p = false →
      (r.src.kind p = some .dir ∨ r.src.kind p = some .file) → AboveKnown r.state p

/-- A call that returns nil, is no `SyncRel` on another spelling of the root, and
makes no directory implicitly. -/
structure TidyStep (c : Call) (r r' : Run Trees) : Prop where
  root : c.AvoidsRoot
  above : c.AboveRemembered r
  ok : c.exec.run r = .ok () r'

section

variable {r r' : Run Trees} {c : Call}

theorem RelEnd.tracked {p : Path} (h : RelEnd p r r') (hp : p ≠ []) (ht : Tracked r.dst r.state)
    (habove : r.syncer.excluder.excluded p = false →
      (r.src.kind p = some .dir ∨ r.src.kind p = some .file) → AboveKnown r.state p) :
    Tracked r'.dst r'.state := by
  unfold RelEnd at h
  cases ho : orderFor r.src r.syncer.excluder.excluded p with
  | drop =>
    rw [ho] at h
    rcases h with ⟨-, rfl⟩ | ⟨-, t, n, m, rfl, hsw⟩
    · exact ht
    · exact hsw.tracked ht fun d hd => hd ▸ hp
  | fail e =>
    rw [ho] at h
    exact h.elim
  | dir info =>
    rw [ho] at h
    obtain ⟨t, n, m, rfl, htouch⟩ := h
    obtain ⟨hex, a, hg, -⟩ := orderFor_dir ho
    exact htouch.tracked ht hp (habove hex (.inl (Tree.kind_of_get hg)))
  | file info =>
    rw [ho] at h
    obtain ⟨t, n, m, rfl, htouch⟩ := h
    obtain ⟨hex, f, hg, -⟩ := orderFor_file ho
    exact htouch.tracked ht hp (habove hex (.inr (Tree.kind_of_get hg)))

theorem TreePass.tracked {p : Path} (h : TreePass p r r') (ht : Tracked r.dst r.state)
    (habove : AboveKnown r.state p) : Tracked r'.dst r'.state := by
  obtain ⟨seen, t₁, m₁, t, n, m, hfull, hsw, rfl⟩ := h
  have ht₁ := hfull.1.tracked ht habove
  exact hsw.tracked ht₁ fun d hd h0 => hd.2.2 (h0 ▸ ht₁.rootState)

theorem TreeEnd.tracked {p : Path} (h : TreeEnd p r r') (hp : p ≠ []) (ht : Tracked r.dst r.state)
    (habove : r.syncer.excluder.excluded p = false →
      (r.src.kind p = some .dir ∨ r.src.kind p = some .file) → AboveKnown r.state p) :
    Tracked r'.dst r'.state := by
  unfold TreeEnd at h
  split at h
  · next info ho =>
    obtain ⟨hex, a, hg, -⟩ := orderFor_dir ho
    exact TreePass.tracked h ht (habove hex (.inl (Tree.kind_of_get hg)))
  · exact RelEnd.tracked h hp ht habove

/-- The step: a tidy call keeps a tracked backup tracked. -/
theorem CallEnd.tracked (h : CallEnd r r' c) (habove : c.AboveRemembered r)
    (ht : Tracked r.dst r.state) (hdst : r.world.disk.dst.link = none) :
    Tracked r'.dst r'.state := by
  cases c with
  | reconcile => exact ReconcileEnd.tracked h ht hdst
  | rel s =>
    rcases h with rfl | ⟨p, hp, h⟩
    · exact ht
    · exact h.tracked hp.2.2 ht (habove p hp)
  | tree s =>
    rcases h with rfl | ⟨p, hp, h⟩ | ⟨-, h⟩
    · exact ht
    · exact h.tracked hp.2.2 ht (habove p hp)
    · exact h.tracked ht fun d hd hne => absurd (List.prefix_nil.1 hd) hne

/-- What holds along tidy histories. -/
structure TidyState (r : Run Trees) : Prop extends r.Idle where
  dstLink : r.world.disk.dst.link = none
  reconciled : r.syncer.reconciled = true
  tracked : Tracked r.dst r.state

theorem TidyStep.keeps (h : TidyStep c r r') (hr : TidyState r) : TidyState r' := by
  have hend := (wp_call hr.toIdle h.root).ok h.ok
  have hf := hend.follows
  have ht := hend.tracked h.above hr.tracked hr.dstLink
  exact ⟨⟨hf.quiet hr.toQuiet, ht.rootState⟩, hf.dstLink.trans hr.dstLink, hf.reconciled hr.reconciled, ht⟩

end

/-- The same source, destination and state map before a deep `Reconcile`. -/
def Run.beforeDeep (r : Run Trees) : Run Trees :=
  { r with syncer := { r.syncer with reconciled := false } }

/-- **The light `Reconcile` leaves what the deep one would have left**, after every
tidy history that starts with a `Reconcile` into an empty destination. -/
theorem light_agrees_with_deep {w : World Trees} {patterns : List Str} {r₀ r r₁ r₂ : Run Trees}
    (hw : Plain w) (hempty : EmptyDir w.dstTree)
    (hfirst : reconcile.run (freshRun w patterns) = .ok () r₀) (hist : History TidyStep r₀ r)
    (hlight : reconcile.run r = .ok () r₁) (hdeep : reconcile.run r.beforeDeep = .ok () r₂) :
    r.syncer.reconciled = true ∧ ∀ p, r₁.dst.Has p ↔ r₂.dst.Has p := by
  have hst := started_of_first hw hempty hfirst
  have htr := (synced_of_first hw hempty hfirst).tracked
  have hr : TidyState r := by
    refine hist.inv TidyState ⟨hst.toIdle, hst.dst, hst.reconciled, htr⟩ (fun r S h => ?_)
      fun c r r' h hc => hc.keeps h
    exact ⟨h.toIdle.edit, h.dstLink, h.reconciled, h.tracked⟩
  have hend₁ := hr.toIdle.reconcile.ok hlight
  have hidle : r.beforeDeep.Idle := ⟨⟨hr.plan, hr.tmp, hr.live⟩, hr.rootState⟩
  have hend₂ := hidle.reconcile.ok hdeep
  refine ⟨hr.reconciled, fun p => ?_⟩
  rw [hend₁.has_iff hr.tracked hr.dstLink, hend₂.has_iff hr.tracked hr.dstLink]
  rfl

/-- An empty source and an empty destination. -/
def emptyWorld : World Trees :=
  .still (.ofList [([], .dir ⟨0o755, 4096, 1⟩)]) (.ofList [([], .dir ⟨0o755, 4096, 1⟩)]) fun n => 100 + n

/-- A directory `a` with a file `b` in it. -/
def nestedTree : Tree :=
  .ofList [([], .dir ⟨0o755, 4096, 1⟩), ([nameA], .dir ⟨0o755, 4096, 5⟩),
    ([nameA, nameB], .file ⟨0o644, 6, [1]⟩)]

/-- `SyncRel` of `a/b` makes the directory `a` without remembering it. When `a` has
gone from the source, the light `Reconcile` leaves it and the deep one does not. -/
theorem light_leaves_parent : Plain emptyWorld ∧ EmptyDir emptyWorld.dstTree ∧
    ∃ r₀ r r₁ r₂, reconcile.run (freshRun emptyWorld []) = .ok () r₀ ∧
      History (fun c r r' => c.exec.run r = .ok () r') r₀ r ∧
      reconcile.run r = .ok () r₁ ∧ reconcile.run r.beforeDeep = .ok () r₂ ∧
      r₁.dst.Has [nameA] ∧ ¬ r₂.dst.Has [nameA] := by
  let r₀ := after reconcile (freshRun emptyWorld [])
  let r' := after (syncRel ['a', '/', 'b']) (r₀.edit nestedTree)
  let r := r'.edit emptyWorld.srcTree
  have h₀ := ok_of_returns reconcile (freshRun emptyWorld []) (by decide +kernel)
  have h' := ok_of_returns (syncRel ['a', '/', 'b']) (r₀.edit nestedTree) (by decide +kernel)
  have h₁ := ok_of_returns reconcile r (by decide +kernel)
  have h₂ := ok_of_returns reconcile r.beforeDeep (by decide +kernel)
  have hist : History (fun c r r' => c.exec.run r = .ok () r') r₀ r := by
    refine History.edit (r := r') ?_ _
    exact History.call (History.edit History.start nestedTree) (.rel ['a', '/', 'b']) h'
  exact ⟨⟨rfl, rfl, rfl, rfl, by decide +kernel⟩, by decide +kernel, r₀, r, _, _, h₀, hist, h₁, h₂,
    by decide +kernel, by decide +kernel⟩

/-- `SyncRel` of `a` first, and everything is remembered. -/
theorem light_agrees_after_nested : ∃ r r₁ r₂, reconcile.run r = .ok () r₁ ∧
    reconcile.run r.beforeDeep = .ok () r₂ ∧ (∀ p, r₁.dst.Has p ↔ r₂.dst.Has p) ∧
    r.dst.Has [nameA, nameB] ∧ ¬ r₁.dst.Has [nameA] := by
  let r₀ := after reconcile (freshRun emptyWorld [])
  let r' := after (syncRel ['a']) (r₀.edit nestedTree)
  let r'' := after (syncRel ['a', '/', 'b']) r'
  let r := r''.edit emptyWorld.srcTree
  have h₀ := ok_of_returns reconcile (freshRun emptyWorld []) (by decide +kernel)
  have h' := ok_of_returns (syncRel ['a']) (r₀.edit nestedTree) (by decide +kernel)
  have h'' := ok_of_returns (syncRel ['a', '/', 'b']) r' (by decide +kernel)
  have h₁ := ok_of_returns reconcile r (by decide +kernel)
  have h₂ := ok_of_returns reconcile r.beforeDeep (by decide +kernel)
  have hc' : clean ['a'] = ⟨false, 0, [nameA]⟩ := by decide +kernel
  have hc'' : clean ['a', '/', 'b'] = ⟨false, 0, [nameA, nameB]⟩ := by decide +kernel
  have hstep' : TidyStep (.rel ['a']) (r₀.edit nestedTree) r' := by
    refine ⟨by simp [Call.AvoidsRoot, RootAlias, hc'], fun p hp _ _ d hd hne h0 => ?_, h'⟩
    obtain rfl : p = [nameA] := (congrArg Cleaned.comps (hc'.symm.trans hp.2.1)).symm
    exact absurd (hd.eq_of_length_le (List.length_pos_iff.2 h0)) hne
  have hstep'' : TidyStep (.rel ['a', '/', 'b']) r' r'' := by
    refine ⟨by simp [Call.AvoidsRoot, RootAlias, hc''], fun p hp _ _ d hd hne h0 => ?_, h''⟩
    obtain rfl : p = [nameA, nameB] := (congrArg Cleaned.comps (hc''.symm.trans hp.2.1)).symm
    have hmem := (List.mem_inits d [nameA, nameB]).2 hd
    simp only [List.inits, List.mem_cons, List.map_cons, List.map_nil, List.not_mem_nil, or_false]
      at hmem
    rcases hmem with rfl | rfl | rfl
    · exact absurd rfl h0
    · decide +kernel
    · exact absurd rfl hne
  have hist : History TidyStep r₀ r := by
    refine History.edit (r := r'') (History.call (r := r') ?_ _ hstep'') _
    exact History.call (History.edit History.start nestedTree) _ hstep'
  have hagree := light_agrees_with_deep ⟨rfl, rfl, rfl, rfl, by decide +kernel⟩ (by decide +kernel) h₀
    hist h₁ h₂
  exact ⟨r, _, _, h₁, h₂, hagree.2, by decide +kernel, by decide +kernel⟩

end Dockerset.Netfin

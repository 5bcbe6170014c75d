import Dockerset.Netfin.Tracked

/-!
# Histories of a syncer

A history is any sequence of source edits and of calls of `Reconcile`, `SyncRel`
and `SyncTree`, on any strings. One lemma says everything a call can do
(`wp_call`); what holds along histories follows by induction (`History.inv`).

Both `SyncRel` and `SyncTree` return early for `"."`, before they clean their
argument: any other string that cleans to the root gets past that test
(`RootAlias`). `SyncTree` then mirrors the whole source, and `SyncRel` remembers the
root.
-/

namespace Dockerset.Netfin
open Go Os Logic

inductive Call where
  | reconcile
  | rel (s : Str)
  | tree (s : Str)

def Call.exec {D : Type} [Disk D] : Call → SyncM D Unit
  | .reconcile => Netfin.reconcile
  | .rel s => syncRel s
  | .tree s => syncTree s

/-- Edits of the source and calls `c` with `step c r r'`. -/
inductive History (step : Call → Run Trees → Run Trees → Prop) (r₀ : Run Trees) : Run Trees → Prop
  | start : History step r₀ r₀
  | edit {r : Run Trees} (h : History step r₀ r) (S : Tree) : History step r₀ (r.edit S)
  | call {r r' : Run Trees} (h : History step r₀ r) (c : Call) (hc : step c r r') : History step r₀ r'

/-- What the start, edits and calls keep holds along every history. -/
theorem History.inv {step : Call → Run Trees → Run Trees → Prop} {r₀ r : Run Trees}
    (I : Run Trees → Prop) (h : History step r₀ r) (h0 : I r₀) (hedit : ∀ r S, I r → I (r.edit S))
    (hcall : ∀ c r r', I r → step c r r' → I r') : I r := by
  induction h with
  | start => exact h0
  | edit _ S ih => exact hedit _ S ih
  | call _ c hc ih => exact hcall c _ _ ih hc

/-! ## One call -/

/-- A spelling of the root that is not `"."`. -/
def RootAlias (s : Str) : Prop := s ≠ ['.'] ∧ clean s = ⟨false, 0, []⟩

instance (s : Str) : Decidable (RootAlias s) := inferInstanceAs (Decidable (_ ∧ _))

/-- `SyncRel` is not called on another spelling of the root. -/
def Call.AvoidsRoot : Call → Prop
  | .reconcile | .tree _ => True
  | .rel s => ¬ RootAlias s

/-- The four kinds of arguments. -/
theorem arg_cases (s : Str) (hs : ¬ RootAlias s) :
    s = ['.'] ∨ (∃ p, Names s p) ∨ (s ≠ ['.'] ∧ (clean s).confined = false) := by
  by_cases hdot : s = ['.']
  · exact .inl hdot
  refine .inr ?_
  cases hc : (clean s).confined with
  | false => exact .inr ⟨hdot, rfl⟩
  | true =>
    have heq : clean s = ⟨false, 0, (clean s).comps⟩ := by
      simp only [Cleaned.confined, Bool.and_eq_true, Bool.not_eq_true', beq_iff_eq] at hc
      exact Cleaned.ext hc.1 hc.2 rfl
    refine .inl ⟨(clean s).comps, hdot, heq, fun hnil => hs ⟨hdot, ?_⟩⟩
    rw [heq, hnil]

section

variable {r r' : Run Trees} {s : Str} {c : Call}

theorem wp_escape {side side' : Side} {k : Loc → Loc → SyncM Trees Unit}
    {Q : Unit → Run Trees → Prop} {E : Err → Run Trees → Prop} (hc : (clean s).confined = false)
    (hE : ∀ e, E e r) :
    WP (do
      let a ← orFail (joinUnder side (clean s).str)
      let b ← orFail (joinUnder side' (clean s).str)
      k a b) Q E r := by
  rw [WP.bind_iff, joinUnder_clean, hc]
  exact hE _

/-- The call has returned nil. -/
def CallEnd (r r' : Run Trees) : Call → Prop
  | .reconcile => ReconcileEnd r r'
  | .rel s => r' = r ∨ ∃ p, Names s p ∧ RelEnd p r r'
  | .tree s => r' = r ∨ (∃ p, Names s p ∧ TreeEnd p r r') ∨ (RootAlias s ∧ TreePass [] r r')

/-- The call has failed. -/
def CallStuck (r r' : Run Trees) : Call → Prop
  | .reconcile => ReconcileStuck r r'
  | .rel _ => RelStuck r r'
  | .tree _ => ∃ p, TreeStuck p r r'

theorem RelStuck.refl (r : Run Trees) : RelStuck r r := ⟨r.dst, 0, .refl _, rfl⟩

/-- **`SyncTree`** on another spelling of the root: it mirrors a source that is a
directory, and does nothing otherwise. -/
theorem wp_syncTree_alias (hi : r.Idle) (hs : RootAlias s) :
    WP (syncTree s) (fun _ r' => r' = r ∨ TreePass [] r r') (fun _ => TreeStuck [] r) r := by
  have hknown : r.syncer.hasStateTree [] = false := by
    rw [Bool.eq_false_iff]
    intro hknown
    obtain ⟨q, hq, hne⟩ := hasStateTree_iff.1 hknown
    rw [inStateTree, Bool.or_eq_true, beq_iff_eq, hasPathPrefix_root] at hq
    obtain rfl : q = [] := hq.resolve_right (by simp)
    exact hne hi.rootState
  rw [syncTree, if_neg hs.1]
  simp only [orFail_joinUnder_clean hs.2, pure_bind]
  rw [hs.2]
  simp only [getSyncer, WP.bind_iff, WP.get_iff, WP.pure_iff, Excluder.excluded_root,
    Bool.false_eq_true, if_false, hasSymlinkInPath, symlinkBelow, wp_liftSys_iff]
  cases hlink : r.world.disk.src.link with
  | some a => exact WP.of_ok (attempt_ok (lstat_src_link hi.plan hlink)) (.inl rfl)
  | none =>
    cases hg : r.src.get [] with
    | none =>
      have hmissing : r.src.missing [] = .ENOENT := by
        apply Tree.missing_eq_enoent
        intro henotdir
        obtain ⟨q, hq, hk⟩ := Tree.missing_eq_enotdir.1 henotdir
        rw [List.prefix_nil.1 hq, Tree.kind, hg] at hk
        simp at hk
      refine WP.of_ok (attempt_error (lstat_src_error hi.plan (.inr hlink) hg)) ?_
      change WP (if (Err.errno (r.src.missing [])).isNotExist = true then _ else _) _ _ r
      rw [hmissing]
      change WP (removeKnownBackupPath [] ⟨.dst, []⟩) _ _ r
      simp only [removeKnownBackupPath, getSyncer, WP.bind_iff, WP.get_iff, WP.pure_iff, hknown]
      exact .inl rfl
    | some n =>
      refine WP.of_ok (attempt_ok (lstat_src_ok hi.plan (.inr hlink) hg)) ?_
      cases n with
      | dir a =>
        exact (wp_treePass hi.toQuiet (.inr hlink) (Tree.has_of_get hg) hi.rootState).mono
          (fun _ _ h => .inr h) fun _ _ h => h
      | _ => exact .inl rfl

/-- **One call** of an idle syncer; `SyncRel` not on another spelling of the root. -/
theorem wp_call (hi : r.Idle) (hc : c.AvoidsRoot) :
    WP c.exec (fun _ r' => CallEnd r r' c) (fun _ r' => CallStuck r r' c) r := by
  cases c with
  | reconcile => exact hi.reconcile
  | rel s =>
    rcases arg_cases s hc with rfl | ⟨p, hp⟩ | ⟨hdot, hesc⟩
    · exact .inl rfl
    · exact (wp_syncRel hi.toQuiet hp).mono (fun _ _ h => .inr ⟨p, hp, h⟩) fun _ _ h => h
    · show WP (syncRel s) _ _ r
      rw [syncRel, if_neg hdot]
      exact wp_escape hesc fun _ => .refl r
  | tree s =>
    by_cases hs : RootAlias s
    · apply (wp_syncTree_alias hi hs).mono
      · rintro _ _ (h | h)
        · exact .inl h
        · exact .inr (.inr ⟨hs, h⟩)
      · exact fun _ _ h => ⟨[], h⟩
    rcases arg_cases s hs with rfl | ⟨p, hp⟩ | ⟨hdot, hesc⟩
    · exact .inl rfl
    · exact (wp_syncTree hi.toQuiet hp hi.rootState).mono (fun _ _ h => .inr (.inl ⟨p, hp, h⟩))
        fun _ _ h => ⟨p, h⟩
    · show WP (syncTree s) _ _ r
      rw [syncTree, if_neg hdot]
      exact wp_escape hesc fun _ => ⟨[], .inr (.inl (.refl r))⟩

/-- What no call changes. -/
structure Follows (r r' : Run Trees) : Prop where
  src : r'.world.disk.src = r.world.disk.src
  dstLink : r'.world.disk.dst.link = r.world.disk.dst.link
  quiet : r.Quiet → r'.Quiet
  clock : r'.world.clock = r.world.clock
  excluder : r'.syncer.excluder = r.syncer.excluder
  reconciled : r.syncer.reconciled = true → r'.syncer.reconciled = true

namespace Follows

variable {t : Tree} {n : Nat} {m : StateMap} {l : List Path}

theorem refl (r : Run Trees) : Follows r r := ⟨rfl, rfl, id, rfl, rfl, id⟩

theorem move : Follows r (r.move t n m) := ⟨rfl, rfl, fun h => h.move, rfl, rfl, id⟩

theorem seeing : Follows r ((r.move t n m).seeing l) :=
  ⟨rfl, rfl, fun h => ⟨h.plan, h.tmp, h.live⟩, rfl, rfl, id⟩

theorem finish : Follows r ((r.move t n m).seeing l).finish :=
  ⟨rfl, rfl, fun h => ⟨h.plan, h.tmp, h.live⟩, rfl, rfl, fun _ => rfl⟩

end Follows

theorem Moved.follows (h : Moved r r') : Follows r r' := by
  obtain ⟨t, n, m, l, rfl⟩ := h
  exact .seeing

theorem RelEnd.moved {p : Path} (h : RelEnd p r r') : Moved r r' := by
  unfold RelEnd at h
  split at h
  · rcases h with ⟨-, rfl⟩ | ⟨-, t, n, m, rfl, -⟩
    · exact ⟨r'.dst, 0, r'.state, r'.seen, rfl⟩
    · exact ⟨t, n, m, r.seen, rfl⟩
  · exact h.elim
  · obtain ⟨t, n, m, rfl, -⟩ := h
    exact ⟨t, n, m, r.seen, rfl⟩

theorem TreePass.moved {p : Path} (h : TreePass p r r') : Moved r r' := by
  obtain ⟨seen, t₁, m₁, t, n, m, -, -, rfl⟩ := h
  exact ⟨t, n, m, seen, rfl⟩

theorem TreeEnd.moved {p : Path} (h : TreeEnd p r r') : Moved r r' := by
  unfold TreeEnd at h
  split at h
  · exact TreePass.moved h
  · exact RelEnd.moved h

theorem CallEnd.follows (h : CallEnd r r' c) : Follows r r' := by
  cases c with
  | reconcile =>
    obtain ⟨seen, t₁, m₁, t, n, m, -, -, rfl⟩ := h
    exact .finish
  | rel s =>
    rcases h with rfl | ⟨p, -, h⟩
    · exact .refl r'
    · exact h.moved.follows
  | tree s =>
    rcases h with rfl | ⟨p, -, h⟩ | ⟨-, h⟩
    · exact .refl r'
    · exact h.moved.follows
    · exact h.moved.follows

theorem CallEnd.umask (h : CallEnd r r' c) : r'.world.umask = r.world.umask := by
  have moved : Moved r r' → r'.world.umask = r.world.umask := by
    rintro ⟨t, n, m, l, rfl⟩
    rfl
  cases c with
  | reconcile =>
    obtain ⟨seen, t₁, m₁, t, n, m, -, -, rfl⟩ := h
    rfl
  | rel s =>
    rcases h with rfl | ⟨p, -, h⟩
    · rfl
    · exact moved h.moved
  | tree s =>
    rcases h with rfl | ⟨p, -, h⟩ | ⟨-, h⟩
    · rfl
    · exact moved h.moved
    · exact moved h.moved

theorem Broken.follows {S : Tree} {rm : Bool} {p : Path} (h : Broken S rm p r r') : Follows r r' := by
  obtain ⟨done, t, m, t', n, l, rfl, -⟩ := h
  exact .seeing

theorem RelStuck.follows (h : RelStuck r r') : Follows r r' := by
  obtain ⟨t, n, -, rfl⟩ := h
  exact .move

theorem CallStuck.follows (h : CallStuck r r' c) : Follows r r' := by
  cases c with
  | reconcile =>
    rcases h with h | ⟨seen, t₁, m₁, A, t, n, m, -, -, rfl, -⟩
    · exact h.follows
    · exact .seeing
  | rel s => exact RelStuck.follows h
  | tree s =>
    obtain ⟨p, h | h | ⟨seen, t₁, m₁, A, t, n, m, -, -, rfl⟩⟩ := h
    · exact h.follows
    · exact h.follows
    · exact .seeing

end

end Dockerset.Netfin

import Dockerset.Netfin.Tracked

/-!
# Paths that change their kind

A pass over the source never turns a file of the destination into a directory
or a directory into a file: `MkdirAll` and `Rename` fail over the other kind, and
what has gone from the source is removed only after the pass. So the second
`Reconcile` converges to the new source exactly when no path has changed its
kind.
-/

namespace Dockerset.Netfin
open Go Os Logic

/-- Where both trees have something, it is of the same kind. -/
def SameKinds (t u : Tree) : Prop := ∀ p k k', t.kind p = some k → u.kind p = some k' → k = k'

instance (t u : Tree) : Decidable (SameKinds t u) :=
  decidable_of_iff (∀ p n, t.get p = some n → ∀ k' ∈ u.kind p, n.kind = k') <| by
    constructor
    · intro h p k k' hk hk'
      obtain ⟨n, hn, rfl⟩ := Option.map_eq_some_iff.1 hk
      exact h p n hn k' hk'
    · intro h p n hn k' hk'
      exact h p n.kind k' (Tree.kind_of_get hn) hk'

theorem SameKinds.isDir {t u : Tree} {p : Path} (h : SameKinds t u) (ht : t.Has p) (hu : u.IsDir p) :
    t.IsDir p := by
  obtain ⟨k, hk⟩ := Tree.exists_kind ht
  rw [Tree.IsDir, hk, h p k _ hk hu]

/-- A tree of directories and regular files below a directory. -/
def Ordinary (S : Tree) : Prop := S.IsDir [] ∧ ∀ p k, S.kind p = some k → k = .dir ∨ k = .file

instance (S : Tree) : Decidable (Ordinary S) :=
  decidable_of_iff (S.IsDir [] ∧ ∀ p n, S.get p = some n → n.kind = .dir ∨ n.kind = .file) <| by
    refine and_congr_right fun _ => ⟨fun h p k hk => ?_, fun h p n hn => ?_⟩
    · obtain ⟨n, hn, rfl⟩ := Option.map_eq_some_iff.1 hk
      exact h p n hn
    · exact h p n.kind (Tree.kind_of_get hn)

theorem Ordinary.mirrored {S : Tree} {ex : Path → Bool} (h : Ordinary S)
    (hex : ∀ p, S.Has p → ex p = false) {p : Path} (hp : p ≠ []) (hS : S.Has p) : Mirrored S ex p := by
  obtain ⟨n, hn⟩ := Tree.has_iff.1 hS
  refine ⟨List.nil_prefix, hp, ⟨n, hn, fun hk => ?_⟩, fun d _ hd => hex d (Tree.has_of_isPrefix hS hd)⟩
  have := h.2 p n.kind (Tree.kind_of_get hn)
  rw [hk] at this
  rcases this with h | h <;> cases h

section

variable {S S' : Tree} {ex : Path → Bool} {T : Set Time} {U : Perm} {t₀ t : Tree} {m₀ m : StateMap}
  {l : List Path} {q : Path}

/-- What a visit adds has the kind it has in the source. -/
theorem Touch.sameKinds {t' : Tree} {m' : StateMap} (h : Touch S T U false q t m t' m')
    (hq : S.Has q) (hs : SameKinds t S) (hS : Ordinary S) : SameKinds t' S := by
  intro p k k' hk hk'
  by_cases hp : t.Has p
  · -- what is there keeps its kind
    obtain ⟨k₀, hk₀⟩ := Tree.exists_kind hp
    have he := hs p k₀ k' hk₀ hk'
    have hkeep := h.kind (fun hc => by cases hc.1) hk₀ (he ▸ hS.2 p k' hk')
    rw [hk] at hkeep
    exact (Option.some.inj hkeep).trans he
  · have hnone : t.shape p = none := Tree.shape_eq_none.2 (Tree.not_has_iff.1 hp)
    have hdir : p <+: q → p ≠ q → k' = .dir := fun hpq hne =>
      Option.some.inj (hk'.symm.trans (Tree.isDir_of_above hq hpq hne))
    rw [Tree.kind_eq_shape] at hk
    cases h with
    | dirKnown | fileKnown | specialKept | fileMatched => rw [hnone] at hk; cases hk
    | specialRemoved _ hrm => cases hrm
    | @dirMade a _ hg h =>
      rw [h.shape] at hk
      split at hk
      · next hc =>
        cases hk
        by_cases he : p = q
        · subst he
          rw [Tree.kind, hg] at hk'
          cases hk'
          rfl
        · exact (hdir hc.1 he).symm
      · rw [hnone] at hk
        cases hk
    | @fileCopied f _ hg h =>
      rw [h.shape] at hk
      split at hk
      · next he =>
        subst he
        rw [Tree.kind, hg] at hk'
        cases hk
        cases hk'
        rfl
      · next he =>
        split at hk
        · next hc =>
          cases hk
          exact (hdir hc.1 he).symm
        · rw [hnone] at hk
          cases hk

theorem Pass.sameKinds (h : Pass S ex T U false [] t₀ m₀ l t m) (hS : Ordinary S)
    (hs : SameKinds t₀ S) : SameKinds t S := by
  induction h with
  | nil => exact hs
  | snoc _ hq _ _ ht ih => exact ht.sameKinds hq.has ih hS

theorem SameKinds.not_stuck (hs : SameKinds t S) (hq : q ≠ []) : ¬ Stuck S false q t := by
  intro h
  cases h with
  | @dir a d hg hd hh hn =>
    refine hn (hs.isDir hh ?_)
    have hdir : S.IsDir q := Tree.isDir_iff.2 ⟨a, hg⟩
    by_cases he : d = q
    · exact he ▸ hdir
    · exact Tree.isDir_of_above hdir.has hd he
  | @overDir f hg hd =>
    cases hs q .dir .file hd (Tree.kind_of_get hg)
  | @file f d hg hd hh hn =>
    refine hn (hs.isDir hh ?_)
    exact Tree.isDir_of_above (Tree.has_of_get hg) (hd.trans (List.dropLast_prefix q))
      fun he => not_prefix_dropLast hq (he ▸ hd)
  | special _ hrm => cases hrm

theorem Synced.kind_eq (h : Synced S ex t m) (hS : Ordinary S) (hex : ∀ p, S.Has p → ex p = false)
    (p : Path) : t.kind p = S.kind p := by
  by_cases hp : p = []
  · rw [hp]
    exact h.root.trans hS.1.symm
  by_cases hh : S.Has p
  · have hm := hS.mirrored hex hp hh
    obtain ⟨n, hn⟩ := Tree.has_iff.1 hh
    have hk : S.kind p = some n.kind := Tree.kind_of_get hn
    cases n with
    | dir a => exact (h.dir p a hm hn).1.trans hk.symm
    | file f => rw [Tree.kind, (h.file p f hm hn).1, hk]; rfl
    | _ => rcases hS.2 p _ hk with h | h <;> cases h
  · have hno := h.other p hp fun hm => hh (hm.1.has)
    rw [Tree.kind, hno.1, Tree.kind, Tree.not_has_iff.1 hh]

end

section

variable {r r' : Run Trees}

/-- Without a change of kind nothing stops a light `Reconcile` of a tracked backup. -/
theorem reconcile_not_stuck (hrec : r.syncer.reconciled = true) (hS : Ordinary r.walked)
    (hdepth : ∀ d, r.walked.IsDir d → d.length < r.world.pathMax) (ht : Tracked r.dst r.state)
    (hs : SameKinds r.dst r.walked) : ¬ ReconcileStuck r r' := by
  rintro (⟨done, t, m, t', n, l, -, hpass, -, hcause⟩ | ⟨seen, t₁, m₁, A, t, n, m, hfull, hsw, -, hcause⟩)
  · rcases hcause with hno | ⟨d, hd, -, hlen⟩ | ⟨q, hq, hstuck, -⟩
    · exact hno hS.1.has
    · have hlt := hdepth d hd
      simp only [List.length_nil] at hlen
      omega
    · exact (hpass.sameKinds hS hs).not_stuck hq.ne_root hstuck
  · rw [if_pos hrec] at hcause
    obtain ⟨hA, d, hd, hno⟩ := hcause
    have ht₁ := hfull.1.tracked ht fun d hd hne => absurd (List.prefix_nil.1 hd) hne
    have htr := hsw.tracked ht₁ hA
    have hd0 : d ≠ [] := fun h => hd (h ▸ htr.rootState)
    exact hno ((htr.iff d hd0).2 hd)

theorem ReconcileEnd.kind_kept (h : ReconcileEnd r r') (hS : Ordinary r.walked)
    (hex : ∀ p, r.walked.Has p → r.syncer.excluder.excluded p = false) (ht : Tracked r.dst r.state)
    (hdst : r.world.disk.dst.link = none) {p : Path} {k : Kind} (hk : r.dst.kind p = some k)
    (hkk : k = .dir ∨ k = .file) (hp : r.walked.Has p) : r'.dst.kind p = some k := by
  obtain ⟨seen, t₁, m₁, hfull, -, hsw⟩ := h.split ht hdst
  have hseen : p = [] ∨ p ∈ seen :=
    or_iff_not_imp_left.2 fun h0 => (hfull.2 p).2 (hS.mirrored hex h0 hp)
  rw [Tree.kind_eq_shape, hfull.keep hsw hseen, ← Tree.kind_eq_shape]
  exact hfull.1.kind (not_cleared_false _ _ _) hk hkk

theorem ReconcileEnd.kind_eq (h : ReconcileEnd r r') (hS : Ordinary r.walked)
    (hex : ∀ p, r.walked.Has p → r.syncer.excluder.excluded p = false) (ht : Tracked r.dst r.state)
    (hdst : r.world.disk.dst.link = none) (hs : SameKinds r.dst r.walked) (p : Path) :
    r'.dst.kind p = r.walked.kind p := by
  have hhas : r'.dst.Has p ↔ r.walked.Has p := by
    rw [h.has_iff ht hdst]
    constructor
    · rintro (rfl | hm)
      · exact hS.1.has
      · exact hm.1.has
    · intro hp
      refine or_iff_not_imp_left.2 fun h0 => ⟨hS.mirrored hex h0 hp, fun hk => ?_⟩
      rcases hS.2 p _ hk with hk | hk <;> cases hk
  by_cases hp : r.walked.Has p
  · obtain ⟨seen, t₁, m₁, hfull, -, hsw⟩ := h.split ht hdst
    have hseen : p = [] ∨ p ∈ seen :=
      or_iff_not_imp_left.2 fun h0 => (hfull.2 p).2 (hS.mirrored hex h0 hp)
    obtain ⟨k, hk⟩ := Tree.exists_kind (hhas.2 hp)
    obtain ⟨k', hk'⟩ := Tree.exists_kind hp
    have hk₁ : t₁.kind p = some k := by
      rw [Tree.kind_eq_shape, ← hfull.keep hsw hseen, ← Tree.kind_eq_shape, hk]
    rw [hk, hk', hfull.1.sameKinds hS hs p k k' hk₁ hk']
  · rw [Tree.kind, Tree.not_has_iff.1 (mt hhas.1 hp), Tree.kind, Tree.not_has_iff.1 hp]

end

/-- **The second `Reconcile` converges exactly when no path has changed its kind.** -/
theorem reconcile_converges_iff {w : World Trees} {patterns : List Str} {r : Run Trees} {S' : Tree}
    (hw : Plain w) (hempty : EmptyDir w.dstTree)
    (hok : reconcile.run (freshRun w patterns) = .ok () r)
    (hS : Ordinary w.srcTree) (hS' : Ordinary S')
    (hex : ∀ p, w.srcTree.Has p ∨ S'.Has p → (newExcluder patterns).excluded p = false)
    (hdepth : ∀ d, S'.IsDir d → d.length < w.pathMax) :
    (∃ r', reconcile.run (r.edit S') = .ok () r' ∧ ∀ p, r'.dst.kind p = S'.kind p) ↔
      SameKinds w.srcTree S' := by
  have hst := started_of_first hw hempty hok
  have hsy := synced_of_first hw hempty hok
  have hkind := hsy.kind_eq hS fun p hp => hex p (.inl hp)
  have hwalked : (r.edit S').walked = S' := Run.walked_eq_src hst.src
  have hex' : ∀ p, (r.edit S').walked.Has p → (r.edit S').syncer.excluder.excluded p = false := by
    intro p hp
    show r.syncer.excluder.excluded p = false
    rw [hst.excluder]
    exact hex p (.inr (hwalked ▸ hp))
  have hord : Ordinary (r.edit S').walked := hwalked.symm ▸ hS'
  have htr : Tracked (r.edit S').dst (r.edit S').state := hsy.tracked
  have hwp := (hst.toIdle.edit (S := S')).reconcile
  constructor
  · rintro ⟨r', hrun, heq⟩ p k k' hk hk'
    have hkept := (hwp.ok hrun).kind_kept hord hex' htr hst.dst ((hkind p).trans hk) (hS.2 p k hk)
      (hwalked.symm ▸ Tree.has_of_kind hk')
    rw [heq p, hk'] at hkept
    exact (Option.some.inj hkept).symm
  · intro hsame
    have hs : SameKinds (r.edit S').dst (r.edit S').walked := by
      rw [hwalked]
      exact fun p k k' hk => hsame p k k' ((hkind p).symm.trans hk)
    have hdepth' : ∀ d, (r.edit S').walked.IsDir d → d.length < (r.edit S').world.pathMax := by
      intro d hd
      show d.length < r.world.pathMax
      rw [hst.pathMax]
      exact hdepth d (hwalked ▸ hd)
    have hno : ∀ r', ¬ ReconcileStuck (r.edit S') r' := fun r' =>
      reconcile_not_stuck hst.reconciled hord hdepth' htr hs
    obtain ⟨_, r', hrun, hend⟩ := (hwp.mono (fun _ _ h => h) fun _ r' h => hno r' h).returns
    refine ⟨r', hrun, fun p => ?_⟩
    rw [hend.kind_eq hord hex' htr hst.dst hs, hwalked]

/-- `copyWorld`'s source after its file `a` has become a directory. -/
def dirAtA : Tree :=
  .ofList [([], .dir ⟨0o755, 4096, 1⟩), ([nameA], .dir ⟨0o755, 4096, 8⟩)]

/-- The file is in the way of the directory: the second `Reconcile` fails. -/
theorem reconcile_stuck_at_file : Plain copyWorld ∧ EmptyDir copyWorld.dstTree ∧
    Ordinary copyWorld.srcTree ∧ Ordinary dirAtA ∧
    (∀ p, copyWorld.srcTree.Has p ∨ dirAtA.Has p → (newExcluder []).excluded p = false) ∧
    ∃ r, reconcile.run (freshRun copyWorld []) = .ok () r ∧
      ¬ ∃ r', reconcile.run (r.edit dirAtA) = .ok () r' := by
  have hrun := ok_of_returns reconcile (freshRun copyWorld []) (by decide +kernel)
  refine ⟨⟨rfl, rfl, rfl, rfl, by decide +kernel⟩, by decide +kernel, by decide +kernel,
    by decide +kernel, fun p _ => excluded_newExcluder_nil p, _, hrun, ?_⟩
  rintro ⟨r', hr'⟩
  have hno : returns reconcile ((after reconcile (freshRun copyWorld [])).edit dirAtA) = false := by
    decide +kernel
  rw [returns, hr'] at hno
  cases hno

/-- `copyWorld`'s source with its file rewritten and a directory added. -/
def copyWorldGrown : Tree :=
  .ofList [([], .dir ⟨0o755, 4096, 1⟩), ([nameA], .file ⟨0o644, 9, [3]⟩),
    ([nameB], .dir ⟨0o755, 4096, 8⟩)]

theorem reconcile_converges_grown : ∃ r r', reconcile.run (freshRun copyWorld []) = .ok () r ∧
    reconcile.run (r.edit copyWorldGrown) = .ok () r' ∧ ∀ p, r'.dst.kind p = copyWorldGrown.kind p := by
  have hw : Plain copyWorld := ⟨rfl, rfl, rfl, rfl, by decide +kernel⟩
  have hrun := ok_of_returns reconcile (freshRun copyWorld []) (by decide +kernel)
  have hdepth : ∀ p n, copyWorldGrown.get p = some n → p.length < copyWorld.pathMax := by
    decide +kernel
  have hS' : Ordinary copyWorldGrown := by decide +kernel
  obtain ⟨r', hr'⟩ := (reconcile_converges_iff hw (by decide +kernel) hrun (by decide +kernel) hS'
    (fun p _ => excluded_newExcluder_nil p) fun d hd => by
      obtain ⟨a, ha⟩ := Tree.isDir_iff.1 hd
      exact hdepth d _ ha).2 (by decide +kernel)
  exact ⟨_, r', hrun, hr'⟩

end Dockerset.Netfin

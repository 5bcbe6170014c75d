import Dockerset.Netfin.DeepReconcile

/-!
# The state map and the destination

`Tracked` says that the state map remembers exactly the paths that the
destination has. A pass over the source keeps it, since it makes directories
before what is in them, and so does a sweep. `Synced` is what a `Reconcile`
into an empty destination leaves: the mirror of the source, fully remembered.
-/

namespace Dockerset.Netfin
open Go Os Logic

/-- The state map remembers the paths that the destination has below its root. -/
structure Tracked (t : Tree) (m : StateMap) : Prop where
  root : t.IsDir []
  rootState : m.lookup [] = none
  iff : ∀ x, x ≠ [] → (t.Has x ↔ m.lookup x ≠ none)

section Touch

variable {S : Tree} {T : Set Time} {U : Perm} {rm : Bool} {q : Path} {t t' : Tree} {m m' : StateMap}

/-- The paths above `q` are remembered. -/
def AboveKnown (m : StateMap) (q : Path) : Prop :=
  ∀ d, d <+: q → d ≠ q → d ≠ [] → m.lookup d ≠ none

/-- One entry added at `q`, with everything above it there already. -/
theorem Tracked.insert (h : Tracked t m) (hq : q ≠ []) {st : PathState} (hroot : t'.IsDir [])
    (hself : t'.Has q) (hrest : ∀ x, x ≠ [] → x ≠ q → (t'.Has x ↔ t.Has x)) :
    Tracked t' (m.insert q st) where
  root := hroot
  rootState := by rw [AList.lookup_insert_eq_ite, if_neg (Ne.symm hq), h.rootState]
  iff x hx := by
    rw [AList.lookup_insert_eq_ite]
    by_cases he : x = q
    · subst he
      simp [hself]
    · rw [if_neg he, hrest x hx he, h.iff x hx]

theorem Touch.tracked (ht : Touch S T U rm q t m t' m') (h : Tracked t m) (hq : q ≠ [])
    (habove : AboveKnown m q) : Tracked t' m' := by
  have hroot : t'.IsDir [] := by
    refine ht.kind ?_ h.root (.inl rfl)
    rintro ⟨-, -, hpre⟩
    exact hq (List.prefix_nil.1 hpre)
  have hup : ∀ x, x ≠ [] → x ≠ q → x <+: q → t.Has x := fun x h0 hne hxq =>
    (h.iff x h0).2 (habove x hxq hne h0)
  cases ht with
  | dirKnown | fileKnown | specialKept => exact h
  | dirMade _ hm =>
    refine h.insert hq hroot (hm.isDir List.prefix_rfl).has fun x h0 hne => ?_
    rw [Tree.has_iff_shape, Tree.has_iff_shape, hm.shape, if_neg]
    exact fun hc => Tree.shape_ne_none.2 (hup x h0 hne hc.1) hc.2
  | fileMatched _ hr =>
    refine h.insert hq hroot ?_ fun x _ _ => Iff.rfl
    obtain ⟨n, hn, -⟩ := reports_iff.1 hr
    exact Tree.has_of_get hn
  | fileCopied _ hc =>
    refine h.insert hq hroot ?_ fun x h0 hne => ?_
    · rw [Tree.has_iff_shape, hc.shape, if_pos rfl]
      rfl
    · rw [Tree.has_iff_shape, Tree.has_iff_shape, hc.shape, if_neg hne, if_neg]
      exact fun h' => Tree.shape_ne_none.2 (hup x h0 hne h'.1) h'.2
  | specialRemoved _ _ hp =>
    refine ⟨hroot, ?_, fun x hx => ?_⟩
    · rw [lookup_prune hq]
      split
      · rfl
      · exact h.rootState
    · rw [lookup_prune hq, Tree.has_iff_shape, hp.shape]
      split
      · simp
      · rw [← Tree.has_iff_shape, h.iff x hx]

end Touch

theorem Swept.tracked {T : Set Time} {A : Path → Prop} {t t' : Tree} {m m' : StateMap}
    (hs : Swept T A t t' m m') (h : Tracked t m) (hA : ∀ d, A d → d ≠ []) : Tracked t' m' where
  root := by
    have hk := (hs.keep [] fun d hd hpre => hA d hd (List.prefix_nil.1 hpre)).1
    rw [Tree.isDir_iff_shape, hk, ← Tree.isDir_iff_shape]
    exact h.root
  rootState := hs.lookup_none h.rootState
  iff x hx := by
    by_cases hd : ∃ d, A d ∧ d <+: x
    · obtain ⟨d, hd, hdx⟩ := hd
      have hgone : ¬ t'.Has x := fun ht => Tree.shape_ne_none.2 ht (hs.gone d x hd hdx)
      have hforgot : m'.lookup x = none := by
        by_cases hh : t.Has x
        · exact hs.forgot d x hd hdx hh
        · exact hs.lookup_none (not_not.1 fun hm => hh ((h.iff x hx).2 hm))
      simp [hgone, hforgot]
    · have hk := hs.keep x fun d hA hdx => hd ⟨d, hA, hdx⟩
      rw [Tree.has_iff_shape, hk.1, ← Tree.has_iff_shape, hk.2, h.iff x hx]

section Pass

variable {S : Tree} {ex : Path → Bool} {T : Set Time} {U : Perm} {rm : Bool} {p : Path} {t₀ t : Tree}
  {m₀ m : StateMap} {l : List Path}

/-- A visited path that has something below it is a remembered directory. -/
theorem Pass.known_of_above (h : Pass S ex T U rm p t₀ m₀ l t m) {d q : Path} (hd : d ∈ l)
    (hq : S.Has q) (hdq : d <+: q) (hne : d ≠ q) : m.lookup d ≠ none := by
  obtain ⟨a, ha⟩ := Tree.isDir_iff.1 (Tree.isDir_of_above hq hdq hne)
  have hdone := h.done hd
  rw [Done, ha] at hdone
  rw [hdone.1]
  simp

theorem Pass.tracked (h : Pass S ex T U rm p t₀ m₀ l t m) (h₀ : Tracked t₀ m₀)
    (hp : AboveKnown m₀ p) : Tracked t m := by
  induction h with
  | nil => exact h₀
  | @snoc l q t t' m m' hpass hq habove hfresh ht ih =>
    refine ht.tracked ih hq.ne_root fun d hdq hne h0 => ?_
    rcases List.prefix_or_prefix_of_prefix hq.below hdq with hpd | hdp
    · exact hpass.known_of_above (habove d hpd hdq hne h0) hq.has hdq hne
    · by_cases he : d = p
      · exact hpass.known_of_above (habove d (he ▸ List.prefix_rfl) hdq hne h0) hq.has hdq hne
      · -- above the start nothing changes
        have hk : m.lookup d = m₀.lookup d := by
          refine hpass.state_frame (fun hmem => ?_) ?_
          · exact he (prefix_antisymm hdp (hpass.reach hmem).below)
          · rintro ⟨s, hs, hc⟩
            exact he (prefix_antisymm hdp ((hpass.reach hs).below.trans hc.2.2))
        rw [hk]
        exact hp d hdp he h0

end Pass

theorem FullPass.not_doomed {r : Run Trees} {seen : List Path} {t₁ : Tree} {m₁ : StateMap} {p d : Path}
    (h : FullPass r.walked false [] r seen t₁ m₁) (hroot : r.state.lookup [] = none) (hp : p ∈ seen)
    (hd : Doomed r seen t₁ m₁ d) : ¬ d <+: p := by
  have hdoomed : d ≠ [] ∧ d ∉ seen := by
    unfold Doomed at hd
    split at hd
    · exact ⟨fun h0 => hd.2.2 (h0 ▸ h.1.lookup_root hroot), hd.2.1⟩
    · exact ⟨hd.2.2.1, hd.2.2.2.1⟩
  intro hdp
  exact hdoomed.2 ((h.2 d).2 (((h.2 p).1 hp).above List.nil_prefix hdp hdoomed.1))

theorem ReconcileEnd.done {r r' : Run Trees} {q : Path} (h : ReconcileEnd r r')
    (hroot : r.state.lookup [] = none) (hq : Reach r.walked r.syncer.excluder.excluded [] q) :
    ∃ t₁ m₁, Done r.walked false q r.dst r.state t₁ m₁ ∧ r'.dst.shape q = t₁.shape q ∧
      r'.state.lookup q = m₁.lookup q := by
  obtain ⟨seen, t₁, m₁, t, n, m, hfull, hsw, rfl⟩ := h
  have hseen := (hfull.2 q).2 hq
  have hkeep := hsw.keep q fun d hd => hfull.not_doomed hroot hseen hd
  exact ⟨t₁, m₁, hfull.1.done hseen, hkeep.1, hkeep.2⟩

theorem ReconcileEnd.lookup_dir {r r' : Run Trees} {q : Path} {a : Attr} (h : ReconcileEnd r r')
    (hroot : r.state.lookup [] = none) (hq : Reach r.walked r.syncer.excluder.excluded [] q)
    (ha : r.walked.get q = some (.dir a)) : r'.state.lookup q = some (dirState a) := by
  obtain ⟨t₁, m₁, hdone, -, hm⟩ := h.done hroot hq
  rw [Done, ha] at hdone
  rw [hm, hdone.1]

theorem ReconcileEnd.lookup_file {r r' : Run Trees} {q : Path} {f : File} (h : ReconcileEnd r r')
    (hroot : r.state.lookup [] = none) (hq : Reach r.walked r.syncer.excluder.excluded [] q)
    (hf : r.walked.get q = some (.file f)) : r'.state.lookup q = some (fileState f) := by
  obtain ⟨t₁, m₁, hdone, -, hm⟩ := h.done hroot hq
  rw [Done, hf] at hdone
  rw [hm, hdone.1]

/-! ## After the first `Reconcile` -/

/-- The root directory and nothing else. -/
def EmptyDir (t : Tree) : Prop := t.IsDir [] ∧ ∀ p, p ≠ [] → ¬ t.Has p

instance (t : Tree) : Decidable (EmptyDir t) :=
  decidable_of_iff (t.IsDir [] ∧ ∀ p n, t.get p = some n → p = []) <| by
    refine and_congr_right fun _ => ⟨fun h p hp ht => ?_, fun h p n hn => ?_⟩
    · obtain ⟨n, hn⟩ := Tree.has_iff.1 ht
      exact hp (h p n hn)
    · by_contra hp
      exact h p hp (Tree.has_of_get hn)

theorem EmptyDir.get {t : Tree} (h : EmptyDir t) {p : Path} (hp : p ≠ []) : t.get p = none :=
  Tree.not_has_iff.1 (h.2 p hp)

/-- The destination and the state map are what the source asks for, path by path. -/
structure Synced (S : Tree) (ex : Path → Bool) (t : Tree) (m : StateMap) : Prop where
  root : t.IsDir []
  rootState : m.lookup [] = none
  dir : ∀ x a, Mirrored S ex x → S.get x = some (.dir a) →
    t.IsDir x ∧ m.lookup x = some (dirState a)
  file : ∀ x f, Mirrored S ex x → S.get x = some (.file f) →
    t.get x = some (.file f) ∧ m.lookup x = some (fileState f)
  other : ∀ x, x ≠ [] → ¬ (Mirrored S ex x ∧ (S.kind x = some .dir ∨ S.kind x = some .file)) →
    t.get x = none ∧ m.lookup x = none

section

variable {S : Tree} {ex : Path → Bool} {T : Set Time} {U : Perm} {t₀ t₁ t : Tree} {m₁ m : StateMap}
  {seen : List Path}

theorem DeepRun.synced (h : DeepRun S ex T U t₀ t₁ t m₁ m seen) (h₀ : EmptyDir t₀) :
    Synced S ex t m := by
  have hkeep : ∀ {x}, x ∈ seen → t.shape x = t₁.shape x ∧ m.lookup x = m₁.lookup x := fun hx =>
    h.swept.keep _ fun _ hd => not_stray_above h.all hx hd
  refine ⟨?_, ?_, fun x a hx ha => ?_, fun x f hx hf => ?_, fun x hx hno => ?_⟩
  · have hk := h.pass.kind (not_cleared_false _ _ _) h₀.1 (.inl rfl)
    have hs := (h.swept.keep [] fun d hd hpre => hd.2.1 (List.prefix_nil.1 hpre)).1
    rw [Tree.isDir_iff_shape, hs, ← Tree.isDir_iff_shape]
    exact hk
  · exact h.swept.lookup_none (h.pass.lookup_root rfl)
  · have hseen := (h.all x).2 hx
    have hd := h.pass.done hseen
    rw [Done, ha] at hd
    exact ⟨h.dir hx (Tree.isDir_iff.2 ⟨a, ha⟩), (hkeep hseen).2.trans hd.1⟩
  · have hseen := (h.all x).2 hx
    have hd := h.pass.done hseen
    rw [Done, hf] at hd
    refine ⟨?_, (hkeep hseen).2.trans hd.1⟩
    rcases h.file hx hf with ⟨hg, -⟩ | ⟨hr, -⟩
    · exact Tree.get_eq_of_shape (hkeep hseen).1 hg (by simp)
    · obtain ⟨n, hn, -⟩ := reports_iff.1 hr
      rw [h₀.get hx.ne_root] at hn
      cases hn
  · by_cases hm : Mirrored S ex x
    · -- a special file
      have hseen := (h.all x).2 hm
      have hd := h.pass.done hseen
      obtain ⟨n, hn, hk⟩ := hm.node
      have hkind : S.kind x = some n.kind := Tree.kind_of_get hn
      rw [Done, hn] at hd
      cases n with
      | dir a => exact absurd ⟨hm, .inl hkind⟩ hno
      | file f => exact absurd ⟨hm, .inr hkind⟩ hno
      | symlink a => exact absurd rfl hk
      | special a =>
        simp only [Bool.false_eq_true, if_false] at hd
        rw [h₀.get hx] at hd
        rw [← Tree.shape_eq_none, (hkeep hseen).1, Tree.shape_eq_none, (hkeep hseen).2]
        exact hd
    · have hseen : x ∉ seen := fun hs => hm ((h.all x).1 hs)
      refine ⟨Tree.not_has_iff.1 fun ht => hm (h.only hx ht), h.swept.lookup_none ?_⟩
      exact h.pass.state_frame hseen (not_cleared_false _ _ _)

theorem Synced.tracked (h : Synced S ex t m) : Tracked t m where
  root := h.root
  rootState := h.rootState
  iff x hx := by
    by_cases hm : Mirrored S ex x ∧ (S.kind x = some .dir ∨ S.kind x = some .file)
    · obtain ⟨hm, hk⟩ := hm
      obtain ⟨n, hn, -⟩ := hm.node
      cases n with
      | dir a => simp [(h.dir x a hm hn).1.has, (h.dir x a hm hn).2]
      | file f => simp [Tree.has_of_get (h.file x f hm hn).1, (h.file x f hm hn).2]
      | _ => simp [Tree.kind, hn] at hk
    · simp [Tree.not_has_iff.2 (h.other x hx hm).1, (h.other x hx hm).2]

end

/-- **The first `Reconcile` into an empty directory.** -/
theorem synced_of_first {w : World Trees} {patterns : List Str} {r' : Run Trees} (hw : Plain w)
    (hempty : EmptyDir w.dstTree) (hok : reconcile.run (freshRun w patterns) = .ok () r') :
    Synced w.srcTree (newExcluder patterns).excluded r'.dst r'.state := by
  obtain ⟨t₁, m₁, n, hrun, -⟩ := deepRun_of_reconcile hw hok
  exact hrun.synced hempty

/-- The syncer after its first `Reconcile`. -/
structure Started (w : World Trees) (patterns : List Str) (r : Run Trees) : Prop extends r.Idle where
  src : r.world.disk.src.link = none
  dst : r.world.disk.dst.link = none
  reconciled : r.syncer.reconciled = true
  excluder : r.syncer.excluder = newExcluder patterns
  clock : r.world.clock = w.clock
  pathMax : r.world.pathMax = w.pathMax

theorem started_of_first {w : World Trees} {patterns : List Str} {r' : Run Trees} (hw : Plain w)
    (hempty : EmptyDir w.dstTree) (hok : reconcile.run (freshRun w patterns) = .ok () r') :
    Started w patterns r' := by
  have hroot := (synced_of_first hw hempty hok).rootState
  obtain ⟨t₁, m₁, n, -, hr'⟩ := deepRun_of_reconcile hw hok
  have hidle : (freshRun w patterns).Idle := ⟨hw.quiet patterns, rfl⟩
  rw [hr'] at hroot ⊢
  exact ⟨(hidle.move hroot).seeing.finish, hw.src, hw.dst, rfl, rfl, rfl, rfl⟩

/-! ## `Reconcile` of a tracked backup -/

section

variable {r r' : Run Trees}

/-- For a tracked backup the light and the deep removal agree on what has to go. -/
theorem Tracked.doomed_iff {seen : List Path} {t : Tree} {m : StateMap} (h : Tracked t m)
    (hdst : r.world.disk.dst.link = none) {d : Path} :
    Doomed r seen t m d ↔ d ≠ [] ∧ d ∉ seen ∧ t.Has d := by
  unfold Doomed
  split
  · constructor
    · rintro ⟨-, hs, hm⟩
      have hd : d ≠ [] := fun h0 => hm (h0 ▸ h.rootState)
      exact ⟨hd, hs, (h.iff d hd).2 hm⟩
    · rintro ⟨hd, hs, ht⟩
      exact ⟨List.nil_prefix, hs, (h.iff d hd).1 ht⟩
  · exact ⟨fun hd => hd.2.2, fun hd => ⟨hdst, List.nil_prefix, hd⟩⟩

/-- **`Reconcile` of a tracked backup**, light or deep: the pass and the sweep of
what it did not see keep the backup tracked. -/
theorem ReconcileEnd.split (h : ReconcileEnd r r') (ht : Tracked r.dst r.state)
    (hdst : r.world.disk.dst.link = none) :
    ∃ seen t₁ m₁, FullPass r.walked false [] r seen t₁ m₁ ∧ Tracked t₁ m₁ ∧
      Swept r.times (fun d => d ≠ [] ∧ d ∉ seen ∧ t₁.Has d) t₁ r'.dst m₁ r'.state := by
  obtain ⟨seen, t₁, m₁, t, n, m, hfull, hsw, rfl⟩ := h
  have ht₁ := hfull.1.tracked ht fun d hd hne => absurd (List.prefix_nil.1 hd) hne
  exact ⟨seen, t₁, m₁, hfull, ht₁, hsw.congr fun d => ht₁.doomed_iff hdst⟩

theorem ReconcileEnd.tracked (h : ReconcileEnd r r') (ht : Tracked r.dst r.state)
    (hdst : r.world.disk.dst.link = none) : Tracked r'.dst r'.state := by
  obtain ⟨seen, t₁, m₁, -, ht₁, hsw⟩ := h.split ht hdst
  exact hsw.tracked ht₁ fun d hd => hd.1

theorem FullPass.keep {S : Tree} {seen : List Path} {t₁ t : Tree} {m₁ m : StateMap} {T : Set Time}
    (h : FullPass S false [] r seen t₁ m₁)
    (hsw : Swept T (fun d => d ≠ [] ∧ d ∉ seen ∧ t₁.Has d) t₁ t m₁ m) {p : Path}
    (hp : p = [] ∨ p ∈ seen) : t.shape p = t₁.shape p := by
  refine (hsw.keep p fun d hd hdp => ?_).1
  rcases hp with rfl | hp
  · exact hd.1 (List.prefix_nil.1 hdp)
  · exact hd.2.1 ((h.2 d).2 (((h.2 p).1 hp).above List.nil_prefix hdp hd.1))

/-- The paths that `Reconcile` leaves in a tracked backup: every directory and file
to be backed up, and what was there in place of a special file. -/
theorem ReconcileEnd.has_iff (h : ReconcileEnd r r') (ht : Tracked r.dst r.state)
    (hdst : r.world.disk.dst.link = none) (p : Path) : r'.dst.Has p ↔
      p = [] ∨ (Mirrored r.walked r.syncer.excluder.excluded p ∧
        (r.walked.kind p = some .special → r.dst.Has p)) := by
  obtain ⟨seen, t₁, m₁, hfull, ht₁, hsw⟩ := h.split ht hdst
  by_cases hp : p = []
  · subst hp
    simp only [true_or, iff_true]
    rw [Tree.has_iff_shape, hfull.keep hsw (.inl rfl), ← Tree.has_iff_shape]
    exact ht₁.root.has
  simp only [hp, false_or]
  by_cases hseen : p ∈ seen
  · have hm := (hfull.2 p).1 hseen
    rw [Tree.has_iff_shape, hfull.keep hsw (.inr hseen), ← Tree.has_iff_shape, ht₁.iff p hp]
    have hdone := hfull.1.done hseen
    obtain ⟨n, hn, hns⟩ := hm.node
    have hk : r.walked.kind p = some n.kind := Tree.kind_of_get hn
    rw [Done, hn] at hdone
    cases n with
    | dir a => simp [hdone.1, hm, hk]
    | file f => simp [hdone.1, hm, hk]
    | special a => simp [hdone.2, hm, hk, ht.iff p hp]
    | symlink a => exact absurd rfl hns
  · refine iff_of_false (fun hhas => ?_) fun hm => hseen ((hfull.2 p).2 hm.1)
    have h1 : t₁.Has p := Tree.shape_ne_none.1 fun h1 => Tree.shape_ne_none.2 hhas (hsw.shape_none h1)
    exact Tree.shape_ne_none.2 hhas (hsw.gone p p ⟨hp, hseen, h1⟩ List.prefix_rfl)

end

end Dockerset.Netfin

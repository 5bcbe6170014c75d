import Dockerset.Netfin.SyncQuiet

/-!
# Removing what is gone, in a quiet world

Both removals, the one that goes by the state map and the one that walks the
destination, sweep away a set of paths with everything below them (`Swept`).
They differ in which paths they find: the light one those that are remembered
and were not seen, the deep one those that are there and were not seen.
-/

namespace Dockerset.Netfin
open Go Os Logic

/-- The paths in `doomed` have been removed from the tree and from the map, with
everything below them. -/
structure Swept (T : Set Time) (doomed : Path → Prop) (t t' : Tree) (m m' : StateMap) : Prop where
  gone : ∀ d q, doomed d → d <+: q → t'.shape q = none
  forgot : ∀ d q, doomed d → d <+: q → t.Has q → m'.lookup q = none
  keep : ∀ q, (∀ d, doomed d → ¬ d <+: q) → t'.shape q = t.shape q ∧ m'.lookup q = m.lookup q
  less : ∀ q st, m'.lookup q = some st → m.lookup q = some st
  frame : ∀ q, (∀ d, doomed d → ¬ d <+: q ∧ q ≠ d.dropLast) → t'.get q = t.get q
  stamped : Tree.Stamped T t t'

namespace Swept

variable {T : Set Time} {A B : Path → Prop} {t u v : Tree} {m m₁ m₂ : StateMap} {p : Path}

theorem refl (T : Set Time) (t : Tree) (m : StateMap) (h : ∀ d, ¬ A d) : Swept T A t t m m where
  gone d _ hd := absurd hd (h d)
  forgot d _ hd := absurd hd (h d)
  keep _ _ := ⟨rfl, rfl⟩
  less _ _ h := h
  frame _ _ := rfl
  stamped := .refl T t

theorem shape_none (h : Swept T A t u m m₁) {q : Path} (hq : t.shape q = none) : u.shape q = none := by
  by_cases hd : ∃ d, A d ∧ d <+: q
  · obtain ⟨d, hd, hdq⟩ := hd
    exact h.gone d q hd hdq
  · rw [(h.keep q fun d hA hdq => hd ⟨d, hA, hdq⟩).1, hq]

theorem lookup_none (h : Swept T A t u m m₁) {q : Path} (hq : m.lookup q = none) :
    m₁.lookup q = none := by
  by_contra hne
  obtain ⟨st, hst⟩ := Option.ne_none_iff_exists'.1 hne
  rw [h.less q st hst] at hq
  cases hq

theorem trans (h : Swept T A t u m m₁) (h' : Swept T B u v m₁ m₂) :
    Swept T (fun d => A d ∨ B d) t v m m₂ where
  gone d q hd hdq := by
    rcases hd with hd | hd
    · exact h'.shape_none (h.gone d q hd hdq)
    · exact h'.gone d q hd hdq
  forgot d q hd hdq hq := by
    rcases hd with hd | hd
    · exact h'.lookup_none (h.forgot d q hd hdq hq)
    · by_cases hu : u.Has q
      · exact h'.forgot d q hd hdq hu
      · -- `q` went in the first sweep
        have hA : ∃ d', A d' ∧ d' <+: q := by
          by_contra hno
          have hk := (h.keep q fun d' hA hdq' => hno ⟨d', hA, hdq'⟩).1
          exact hu (Tree.shape_ne_none.1 (hk ▸ Tree.shape_ne_none.2 hq))
        obtain ⟨d', hA, hdq'⟩ := hA
        exact h'.lookup_none (h.forgot d' q hA hdq' hq)
  keep q hq := by
    have h1 := h.keep q fun d hd => hq d (.inl hd)
    have h2 := h'.keep q fun d hd => hq d (.inr hd)
    exact ⟨h2.1.trans h1.1, h2.2.trans h1.2⟩
  less q st hst := h.less q st (h'.less q st hst)
  frame q hq := by
    rw [h'.frame q fun d hd => hq d (.inr hd), h.frame q fun d hd => hq d (.inl hd)]
  stamped := h.stamped.trans h'.stamped

/-- Paths below one that went may be counted among those that went. -/
theorem widen (h : Swept T A t u m m₁) (hAB : ∀ d, A d → B d) (hBA : ∀ d, B d → ∃ a, A a ∧ a <+: d) :
    Swept T B t u m m₁ where
  gone d q hd hdq := by
    obtain ⟨a, ha, had⟩ := hBA d hd
    exact h.gone a q ha (had.trans hdq)
  forgot d q hd hdq hq := by
    obtain ⟨a, ha, had⟩ := hBA d hd
    exact h.forgot a q ha (had.trans hdq) hq
  keep q hq := h.keep q fun d hd => hq d (hAB d hd)
  less := h.less
  frame q hq := h.frame q fun d hd => hq d (hAB d hd)
  stamped := h.stamped

theorem congr (h : Swept T A t u m m₁) (hAB : ∀ d, A d ↔ B d) : Swept T B t u m m₁ :=
  h.widen (fun d => (hAB d).1) fun d hd => ⟨d, (hAB d).2 hd, List.prefix_rfl⟩

/-- One path removed with all that is remembered below it. -/
theorem of_pruned (hp : p ≠ []) (h : Tree.Pruned T p t u) :
    Swept T (fun d => d = p) t u m (StateMap.prune m p) where
  gone d q hd hdq := by
    subst hd
    rw [h.shape, if_pos hdq]
  forgot d q hd hdq _ := by
    subst hd
    rw [lookup_prune hp, if_pos hdq]
  keep q hq := by
    have hpq := hq p rfl
    rw [h.shape, if_neg hpq, lookup_prune hp, if_neg hpq]
    exact ⟨rfl, rfl⟩
  less q st hst := by
    rw [lookup_prune hp] at hst
    split at hst
    · cases hst
    · exact hst
  frame q hq := h.frame q (hq p rfl).1 (hq p rfl).2
  stamped := h.stamped

/-- A file removed and forgotten: nothing lies below it. -/
theorem of_removed (hnd : ¬ t.IsDir p) (h : Tree.Pruned T p t u) :
    Swept T (fun d => d = p) t u m (m.erase p) where
  gone d q hd hdq := by
    subst hd
    rw [h.shape, if_pos hdq]
  forgot d q hd hdq hq := by
    subst hd
    have he : q = d := by
      by_contra hne
      exact hnd (Tree.isDir_of_above hq hdq (Ne.symm hne))
    rw [AList.lookup_erase_eq_ite, if_pos he]
  keep q hq := by
    have hpq := hq p rfl
    have hne : q ≠ p := fun he => hpq (he ▸ List.prefix_rfl)
    rw [h.shape, if_neg hpq, AList.lookup_erase_eq_ite, if_neg hne]
    exact ⟨rfl, rfl⟩
  less q st hst := by
    rw [AList.lookup_erase_eq_ite] at hst
    split at hst
    · cases hst
    · exact hst
  frame q hq := h.frame q (hq p rfl).1 (hq p rfl).2
  stamped := h.stamped

end Swept

/-! ## By the state map -/

/-- What `removeDeletedFromStateUnder` removes. -/
def Unseen (m : StateMap) (root : Path) (seen : List Path) (d : Path) : Prop :=
  root <+: d ∧ d ∉ seen ∧ m.lookup d ≠ none

section

variable {r : Run Trees} {root rel : Path} {seen : List Path}

theorem wp_removeDeletedPath {Q : Unit → Run Trees → Prop} {E : Err → Run Trees → Prop}
    (hr : r.Quiet) (hrel : rel ≠ [])
    (hskip : ¬ Unseen r.state root seen rel → Q () r)
    (hok : ∀ t, Unseen r.state root seen rel → Tree.Pruned r.times rel r.dst t →
      Q () (r.move t 1 (StateMap.prune r.state rel)))
    (herr : ∀ e, Unseen r.state root seen rel → ¬ r.dst.Has rel → E e r) :
    WP (removeDeletedPath root seen rel) Q E r := by
  unfold removeDeletedPath
  split
  · next hno => exact hskip fun h => outside_iff.1 hno h.1
  · next hu =>
    have hpre := not_not.1 (mt outside_iff.2 hu)
    split
    · next hseen => exact hskip fun h => h.2.1 hseen
    · next hseen =>
      simp only [hasState, getSyncer, WP.bind_iff, WP.get_iff, WP.pure_iff]
      split
      · next hst => exact hskip fun h => h.2.2 (by simpa using hst)
      · next hst =>
        have hun : Unseen r.state root seen rel := ⟨hpre, hseen, by simpa using hst⟩
        simp only [orFail_joinUnder, WP.bind_iff, WP.get_iff, WP.pure_iff, wp_liftSys_iff, hr.live]
        refine wp_removePath hr.plan hrel (fun t ht => ?_) fun e _ hh => herr e hun hh
        exact wp_forgetStateTree (r := r.move t 1 r.state) hr.move (hok t hun ht)

/-- **The light removal.** It gets stuck only where the state map remembers a
path that the destination does not have. -/
theorem wp_removeDeletedFromStateUnder (hr : r.Quiet) (hroot : r.state.lookup [] = none) :
    WP (removeDeletedFromStateUnder root seen)
      (fun _ r' => ∃ t n m, r' = r.move t n m ∧
        Swept r.times (Unseen r.state root seen) r.dst t r.state m)
      (fun _ r' => ∃ A t n m, r' = r.move t n m ∧ Swept r.times A r.dst t r.state m ∧
        (∀ d, A d → d ≠ []) ∧ ∃ d, m.lookup d ≠ none ∧ ¬ t.Has d) r := by
  simp only [removeDeletedFromStateUnder, getSyncer, WP.bind_iff, WP.get_iff, WP.pure_iff]
  refine (WP.forM (fun done r' => ∃ t n m, r' = r.move t n m ∧ Swept r.times
    (fun d => d ∈ done ∧ Unseen r.state root seen d) r.dst t r.state m) ?_ ?_).mono ?_ fun _ _ h => h
  · exact ⟨r.dst, 0, r.state, rfl, .refl _ _ _ (by simp)⟩
  · rintro done rel rest _ hl ⟨t, n, m, rfl, hsw⟩
    have hmem : r.state.lookup rel ≠ none := by
      apply mem_statePaths.1
      rw [hl]
      simp
    have hrel : rel ≠ [] := fun h => hmem (h ▸ hroot)
    have hset : ∀ d, ((d ∈ done ∧ Unseen r.state root seen d) ∨
        (d = rel ∧ Unseen r.state root seen rel)) ↔ d ∈ done ++ [rel] ∧ Unseen r.state root seen d := by
      intro d
      rw [List.mem_append, List.mem_singleton]
      constructor
      · rintro (⟨h1, h2⟩ | ⟨rfl, h2⟩)
        · exact ⟨.inl h1, h2⟩
        · exact ⟨.inr rfl, h2⟩
      · rintro ⟨h1 | rfl, h2⟩
        · exact .inl ⟨h1, h2⟩
        · exact .inr ⟨rfl, h2⟩
    refine wp_removeDeletedPath hr.move hrel (fun hno => ?_) (fun u hun hpr => ?_) fun e hun hh => ?_
    · refine ⟨t, n, m, rfl, ?_⟩
      by_cases hun : Unseen r.state root seen rel
      · -- it was removed with a path above it
        have hnone : m.lookup rel = none := by
          by_contra hne
          exact hno ⟨hun.1, hun.2.1, hne⟩
        have habove : ∃ d, (d ∈ done ∧ Unseen r.state root seen d) ∧ d <+: rel := by
          by_contra hc
          have hk := (hsw.keep rel fun d hd hdr => hc ⟨d, hd, hdr⟩).2
          exact hmem (hk ▸ hnone)
        obtain ⟨d, hd, hdr⟩ := habove
        refine hsw.widen (fun x hx => (hset x).1 (.inl hx)) fun x hx => ?_
        rcases (hset x).2 hx with hx | ⟨rfl, -⟩
        · exact ⟨x, hx, List.prefix_rfl⟩
        · exact ⟨d, hd, hdr⟩
      · exact hsw.congr fun x => by rw [← hset]; simp [hun]
    · refine ⟨u, n + 1, StateMap.prune m rel, by simp, ?_⟩
      have hun' : Unseen r.state root seen rel := ⟨hun.1, hun.2.1, hmem⟩
      exact (hsw.trans (Swept.of_pruned hrel hpr)).congr fun x => by rw [← hset]; simp [hun']
    · exact ⟨_, t, n, m, rfl, hsw, fun d hd h => hd.2.2.2 (h ▸ hroot), rel, hun.2.2, hh⟩
  · rintro _ r' ⟨t, n, m, rfl, hsw⟩
    exact ⟨t, n, m, rfl, hsw.congr fun d => ⟨fun h => h.2, fun h => ⟨mem_statePaths.2 h.2.2, h⟩⟩⟩

end

/-! ## By walking the destination -/

/-- What the walk of the destination removes at or below `p`. -/
def Stray (p : Path) (seen : List Path) (t : Tree) (d : Path) : Prop :=
  p <+: d ∧ d ≠ [] ∧ d ∉ seen ∧ t.Has d

section

variable {seen : List Path} {p : Path} {E : Err → Run Trees → Prop} {r : Run Trees}

theorem readDir_dst_run {w : World Trees} (hq : w.plan = []) (hd : w.dstTree.IsDir p) :
    (attempt (readDir ⟨.dst, p⟩)).run w =
      .ok (.ok ((w.dstTree.names p).map fun x => (x, (w.dstTree.kind (p ++ [x])).getD .special))) w := by
  refine attempt_ok (query_ok hq ?_)
  change w.dstTree.readDir p = _
  obtain ⟨a, ha⟩ := Tree.isDir_iff.1 hd
  rw [Tree.readDir, ha]

theorem wp_deepRemoveFn (hr : r.Quiet) {k : Kind}
    (hk : r.dst.kind p = some k) {Q : Ctl → Run Trees → Prop}
    (hkeep : p = [] ∨ p ∈ seen → Q .next r)
    (hgone : ∀ t m, p ≠ [] → p ∉ seen → Swept r.times (Stray p seen r.dst) r.dst t r.state m →
      Q (if k = .dir then .skipDir else .next) (r.move t 1 m)) :
    WP (deepRemoveFn seen p (.ok k)) Q E r := by
  have hhas := Tree.has_of_kind hk
  simp only [deepRemoveFn]
  by_cases hp : p = []
  · rw [if_pos hp]
    exact hkeep (.inl hp)
  rw [if_neg hp]
  by_cases hseen : p ∈ seen
  · rw [if_pos hseen]
    exact hkeep (.inr hseen)
  rw [if_neg hseen]
  have hstray : Stray p seen r.dst p := ⟨List.prefix_rfl, hp, hseen, hhas⟩
  split
  · next hd =>
    simp only [WP.bind_iff, wp_liftSys_iff, WP.pure_iff]
    refine wp_removeAll_dst hr.plan hp (fun t ht => ?_) fun e he => ?_
    · have hpr := Tree.removeAll_spec (Set.mem_range_self r.world.tick) ht
      refine wp_forgetStateTree (r := r.move t 1 r.state) hr.move ?_
      have hsw : Swept r.times (Stray p seen r.dst) r.dst t r.state (StateMap.prune r.state p) :=
        (Swept.of_pruned hp hpr).widen (fun d hd => hd ▸ hstray) fun d hd => ⟨p, rfl, hd.1⟩
      have h := hgone t _ hp hseen hsw
      rw [if_pos hd] at h
      exact h
    · obtain ⟨t', ht'⟩ := Tree.removeAll_ok (r.world.clock r.world.tick) hhas
      cases ht'.symm.trans he
  · next hd =>
    have hnd : ¬ r.dst.IsDir p := fun h => hd (Option.some.inj (hk.symm.trans h))
    simp only [WP.bind_iff, wp_liftSys_iff, WP.pure_iff]
    refine wp_remove_dst hr.plan hp (fun t ht => ?_) fun e he => ?_
    · have hpr := Tree.remove_spec (Set.mem_range_self r.world.tick) ht
      refine wp_forgetState (r := r.move t 1 r.state) hr.move ?_
      have hsw : Swept r.times (Stray p seen r.dst) r.dst t r.state (r.state.erase p) :=
        (Swept.of_removed hnd hpr).widen (fun d hd => hd ▸ hstray) fun d hd => ⟨p, rfl, hd.1⟩
      have h := hgone t _ hp hseen hsw
      rw [if_neg hd] at h
      exact h
    · obtain ⟨t', ht'⟩ := Tree.remove_ok (r.world.clock r.world.tick) hhas hnd
      cases ht'.symm.trans he

/-- The deep walk sweeps away what is at or below `p` and was not seen. -/
def DeepEnd (seen : List Path) (p : Path) (r r' : Run Trees) : Prop :=
  ∃ t n m, r' = r.move t n m ∧ Swept r.times (Stray p seen r.dst) r.dst t r.state m

/-- It gets stuck only at a directory that is too deep to be listed. -/
def DeepStuck (fuel : Nat) (p : Path) (r r' : Run Trees) : Prop :=
  (∃ A t n m, r' = r.move t n m ∧ Swept r.times A r.dst t r.state m) ∧
    ∃ d, r.dst.IsDir d ∧ p <+: d ∧ d.length = p.length + fuel

/-- A directory that stays, given how the walk goes below it. -/
theorem wp_deepNode (hr : r.Quiet) {k : Kind} (hk : r.dst.kind p = some k)
    {list : SyncM Trees (Except Err (List (Name × Kind)))} {child : Name × Kind → SyncM Trees Ctl}
    (hbelow : k = .dir → p = [] ∨ p ∈ seen →
      WP (list >>= walkListed (deepRemoveFn seen) p child)
        (fun c r' => c = .next ∧ DeepEnd seen p r r') E r) :
    WP (walkNode (deepRemoveFn seen) p k list child) (fun c r' => c = .next ∧ DeepEnd seen p r r') E
      r := by
  rw [walkNode, WP.bind_iff]
  refine wp_deepRemoveFn hr hk (fun hkeep => ?_) fun t m hp hseen hsw => ?_
  · by_cases hd : k = .dir
    · simpa [hd] using hbelow hd hkeep
    · simp only [hd, ne_eq, not_false_eq_true, if_true, WP.pure_iff, true_and]
      refine ⟨r.dst, 0, r.state, rfl, .refl _ _ _ fun d hs => ?_⟩
      have hpd := Tree.eq_of_leaf hk hd hs.2.2.2 hs.1
      subst hpd
      rcases hkeep with h | h
      · exact hs.2.1 h
      · exact hs.2.2.1 h
  · by_cases hd : k = .dir
    · simp only [hd, if_true, WP.pure_iff, true_and]
      exact ⟨t, 1, m, rfl, hsw⟩
    · simp only [hd, if_false, ne_eq, not_false_eq_true, if_true, WP.pure_iff, true_and]
      exact ⟨t, 1, m, rfl, hsw⟩

theorem Swept.keep_sibling {T : Set Time} {t u : Tree} {m m' : StateMap} {q : Path} {x : Name}
    {done : List Name} (h : Swept T (fun d => ∃ y ∈ done, Stray (p ++ [y]) seen t d) t u m m')
    (hx : x ∉ done) (hq : p ++ [x] <+: q) : u.shape q = t.shape q := by
  refine (h.keep q ?_).1
  rintro d ⟨y, hy, hd⟩ hdq
  have heq : p ++ [y] = p ++ [x] := by
    rcases List.prefix_or_prefix_of_prefix (hd.1.trans hdq) hq with h' | h'
    · exact h'.eq_of_length (by simp)
    · exact (h'.eq_of_length (by simp)).symm
  rw [List.append_cancel_left_eq, List.cons.injEq] at heq
  exact hx (heq.1 ▸ hy)

theorem listing_split {t : Tree} {done rest : List (Name × Kind)} {x : Name} {k : Kind}
    (hl : (t.names p).map (fun x => (x, (t.kind (p ++ [x])).getD .special)) = done ++ (x, k) :: rest) :
    x ∉ done.map Prod.fst ∧ t.kind (p ++ [x]) = some k := by
  have hnames : t.names p = done.map Prod.fst ++ x :: rest.map Prod.fst := by
    have h := congrArg (List.map Prod.fst) hl
    simpa [Function.comp_def] using h
  constructor
  · have hnd := t.names_nodup p
    rw [hnames] at hnd
    exact fun hmem => (List.nodup_append.1 hnd).2.2 x hmem x List.mem_cons_self rfl
  · have hhas : t.Has (p ++ [x]) := Tree.mem_names.1 (by rw [hnames]; simp)
    obtain ⟨k', hk'⟩ := Tree.exists_kind hhas
    have hmem : (x, k) ∈ (t.names p).map fun x => (x, (t.kind (p ++ [x])).getD .special) := by
      rw [hl]
      simp
    simp only [List.mem_map, Prod.mk.injEq] at hmem
    obtain ⟨y, -, rfl, rfl⟩ := hmem
    rw [hk']
    rfl

/-- What is stray below a path is a matter of the paths there. -/
theorem stray_congr {t u : Tree} {d : Path} (h : ∀ q, p <+: q → u.shape q = t.shape q) :
    Stray p seen u d ↔ Stray p seen t d := by
  unfold Stray
  refine and_congr_right fun hpd => ?_
  rw [Tree.has_iff_shape, h d hpd, ← Tree.has_iff_shape]

theorem stray_iff_entry {t : Tree} {d : Path} (hkeep : p = [] ∨ p ∈ seen) :
    Stray p seen t d ↔ ∃ y ∈ t.names p, Stray (p ++ [y]) seen t d := by
  constructor
  · intro hd
    have hne : p ≠ d := by
      rintro rfl
      rcases hkeep with h | h
      · exact hd.2.1 h
      · exact hd.2.2.1 h
    obtain ⟨l, rfl⟩ := hd.1
    obtain ⟨y, l, rfl⟩ := List.exists_cons_of_ne_nil (l := l) (by rintro rfl; simp at hne)
    have hy : p ++ [y] <+: p ++ y :: l := ⟨l, by simp⟩
    exact ⟨y, Tree.mem_names.2 (Tree.has_of_isPrefix hd.2.2.2 hy), hy, hd.2⟩
  · rintro ⟨y, -, hd⟩
    exact ⟨(List.prefix_append _ _).trans hd.1, hd.2⟩

/-- **The deep walk**, from an entry `p` of the destination on. -/
theorem wp_deepWalkDir (fuel : Nat) : ∀ (p : Path) (k : Kind) (r : Run Trees), r.Quiet →
    r.dst.kind p = some k →
    WP (walkDir (deepRemoveFn seen) .dst fuel p k) (fun c r' => c = .next ∧ DeepEnd seen p r r')
      (fun _ => DeepStuck fuel p r) r := by
  induction fuel with
  | zero =>
    intro p k r hr hk
    rw [walkDir]
    refine wp_deepNode hr hk fun hd _ => ?_
    have hdir : r.dst.IsDir p := by rw [Tree.IsDir, hk, hd]
    simp only [pure_bind, walkListed, deepRemoveFn, WP.bind_iff, WP.throw_iff]
    exact ⟨⟨_, r.dst, 0, r.state, rfl, .refl (A := fun _ => False) _ _ _ fun _ => id⟩, p, hdir,
      List.prefix_rfl, rfl⟩
  | succ fuel ih =>
    intro p k r hr hk
    rw [walkDir]
    refine wp_deepNode hr hk fun hd hkeep => ?_
    have hdir : r.dst.IsDir p := by rw [Tree.IsDir, hk, hd]
    rw [WP.bind_iff]
    refine WP.of_ok (liftSys_ok (readDir_dst_run (w := r.world) hr.plan hdir)) ?_
    simp only [walkListed, WP.bind_iff, WP.pure_iff]
    refine (wp_walkEntries (fun done r' => ∃ t n m, r' = r.move t n m ∧ Swept r.times
      (fun d => ∃ y ∈ done.map Prod.fst, Stray (p ++ [y]) seen r.dst d) r.dst t r.state m)
      ⟨r.dst, 0, r.state, rfl, .refl _ _ _ (by simp)⟩ ?_).mono ?_ fun _ _ h => h
    · rintro done ⟨x, kx⟩ rest _ hl ⟨t, n, m, rfl, hsw⟩
      obtain ⟨hx, hkx⟩ := listing_split hl
      have hsib : ∀ q, p ++ [x] <+: q → t.shape q = r.dst.shape q := fun q => hsw.keep_sibling hx
      have hkt : t.kind (p ++ [x]) = some kx := by
        rw [Tree.kind_eq_shape, hsib _ List.prefix_rfl, ← Tree.kind_eq_shape, hkx]
      refine (ih (p ++ [x]) kx (r.move t n m) hr.move hkt).mono ?_ ?_
      · rintro c r' ⟨rfl, u, n', m', rfl, hsw'⟩
        refine ⟨rfl, u, n + n', m', by simp, (hsw.trans hsw').congr fun d => ?_⟩
        have hstray : Stray (p ++ [x]) seen t d ↔ Stray (p ++ [x]) seen r.dst d := stray_congr hsib
        simp only [List.map_append, List.map_cons, List.map_nil, List.mem_append, List.mem_singleton]
        constructor
        · rintro (⟨y, hy, hd⟩ | hd)
          · exact ⟨y, .inl hy, hd⟩
          · exact ⟨x, .inr rfl, hstray.1 hd⟩
        · rintro ⟨y, hy | rfl, hd⟩
          · exact .inl ⟨y, hy, hd⟩
          · exact .inr (hstray.2 hd)
      · rintro e r' ⟨⟨A, u, n', m', rfl, hsw'⟩, d, hd, hpd, hlen⟩
        refine ⟨⟨_, u, n + n', m', by simp, hsw.trans hsw'⟩, d, ?_, (List.prefix_append _ _).trans hpd, ?_⟩
        · rw [Tree.isDir_iff_shape, ← hsib d hpd, ← Tree.isDir_iff_shape]
          exact hd
        · rw [hlen, List.length_append, List.length_singleton]
          omega
    · rintro _ r' ⟨t, n, m, rfl, hsw⟩
      refine ⟨trivial, t, n, m, rfl, hsw.congr fun d => ?_⟩
      rw [stray_iff_entry hkeep]
      simp [Function.comp_def]

/-- **`removeDeletedByWalkingDestination`**, for a destination that is no link. -/
theorem wp_removeDeletedByWalkingDestination (hr : r.Quiet) (hlink : r.world.disk.dst.link = none) :
    WP (removeDeletedByWalkingDestination seen)
      (fun _ r' => r.dst.Has [] ∧ DeepEnd seen [] r r')
      (fun _ r' => (¬ r.dst.Has [] ∧ r' = r) ∨ DeepStuck r.world.pathMax [] r r') r := by
  simp only [removeDeletedByWalkingDestination, getSyncer, WP.bind_iff, WP.get_iff, WP.pure_iff,
    hr.live, Bool.false_eq_true, if_false]
  by_cases hhas : r.dst.Has []
  · obtain ⟨node, hg⟩ := Tree.has_iff.1 hhas
    have hlstat : (lstat ⟨.dst, []⟩).run r.world = .ok node.info r.world :=
      query_ok hr.plan ((Root.lstat_eq (.inr hlink)).trans (Tree.lstat_of_get hg))
    rw [wp_walk_ok (liftSys_ok (s := r) (attempt_ok hlstat))]
    exact (wp_deepWalkDir r.world.pathMax [] node.info.kind r hr (Tree.kind_of_get hg)).mono
      (fun _ _ h => ⟨hhas, h.2⟩) fun _ _ h => .inr h
  · have hlstat : (lstat ⟨.dst, []⟩).run r.world = .error (.errno (r.dst.missing [])) r.world :=
      query_error hr.plan
        ((Root.lstat_eq (.inr hlink)).trans (Tree.lstat_of_none (Tree.not_has_iff.1 hhas)))
    rw [wp_walk_error (liftSys_ok (s := r) (attempt_error hlstat))]
    exact .inl ⟨hhas, rfl⟩

/-- At a destination that is a link the walk sees the link and nothing else. -/
theorem wp_removeDeletedByWalkingDestination_link (hr : r.Quiet) {a : Attr}
    (hlink : r.world.disk.dst.link = some a) {Q : Unit → Run Trees → Prop}
    (hQ : Q () r) : WP (removeDeletedByWalkingDestination seen) Q E r := by
  simp only [removeDeletedByWalkingDestination, getSyncer, WP.bind_iff, WP.get_iff, WP.pure_iff,
    hr.live, Bool.false_eq_true, if_false]
  have hlstat : (lstat ⟨.dst, []⟩).run r.world = .ok (a.info .symlink) r.world := by
    refine query_ok hr.plan ?_
    change r.world.disk.dst.lstat [] = _
    simp only [Root.lstat, hlink]
  rw [wp_walk_ok (liftSys_ok (s := r) (attempt_ok hlstat))]
  exact wp_walkDir_leaf (by simp [Attr.info]) hQ

end

end Dockerset.Netfin

import Dockerset.Netfin.Backed
import Dockerset.Netfin.Pending

/-!
# Incremental sync

`flushPending` handles the pending paths one after the other. While it does,
every path is either settled for the new source, or still waiting for an entry
and as the last `Reconcile` left it (`Halfway`). An entry settles its path, and a
tree entry everything below it; nothing that is settled is disturbed later, since
an entry never lies above an earlier one (`Apart`). When no entry is left the
destination mirrors the new source.

The one thing that can go wrong is an impostor: a directory of the old backup
that reports the metadata of a file now at its path passes for the file's backup,
and what is in it stays.
-/

namespace Dockerset.Netfin
open Go Os Logic

/-- `p` is a directory or a regular file to be backed up. -/
def InMirror (S : Tree) (ex : Path → Bool) (p : Path) : Prop :=
  Mirrored S ex p ∧ (S.kind p = some .dir ∨ S.kind p = some .file)

instance (S : Tree) (ex : Path → Bool) (p : Path) : Decidable (InMirror S ex p) :=
  inferInstanceAs (Decidable (_ ∧ _))

/-- The backup at `p` is what the source asks for. -/
structure Settled (S : Tree) (ex : Path → Bool) (t : Tree) (p : Path) : Prop where
  dir : Mirrored S ex p → S.IsDir p → t.IsDir p
  file : ∀ f, Mirrored S ex p → S.get p = some (.file f) →
    Reports t p f.info ∧ ∀ x, ¬ t.Has (p ++ [x])
  other : ¬ InMirror S ex p → ¬ t.Has p

section Settled

variable {S : Tree} {ex : Path → Bool} {t t' : Tree} {p q : Path}

theorem Settled.of_gone (hno : ¬ InMirror S ex p) (ht : ¬ t.Has p) : Settled S ex t p where
  dir hm hd := absurd ⟨hm, .inl hd⟩ hno
  file _ hm hf := absurd ⟨hm, .inr (Tree.kind_of_get hf)⟩ hno
  other _ := ht

theorem Settled.of_dir (hd : S.IsDir p) (hm : Mirrored S ex p) (ht : t.IsDir p) : Settled S ex t p where
  dir _ _ := ht
  file f _ hf := by
    rw [Tree.IsDir, Tree.kind, hf] at hd
    cases hd
  other hno := absurd ⟨hm, .inl hd⟩ hno

theorem Settled.of_file {f : File} (hf : S.get p = some (.file f)) (hm : Mirrored S ex p)
    (hr : Reports t p f.info) (hx : ∀ x, ¬ t.Has (p ++ [x])) : Settled S ex t p where
  dir _ hd := by
    rw [Tree.IsDir, Tree.kind, hf] at hd
    cases hd
  file g _ hg := by
    rw [hf] at hg
    cases hg
    exact ⟨hr, hx⟩
  other hno := absurd ⟨hm, .inr (Tree.kind_of_get hf)⟩ hno

theorem Settled.frame (h : Settled S ex t p) (hg : t'.get p = t.get p)
    (hx : ∀ x, t'.Has (p ++ [x]) → t.Has (p ++ [x])) : Settled S ex t' p where
  dir hm hd := by
    have ht := h.dir hm hd
    rw [Tree.isDir_iff] at ht ⊢
    rwa [hg]
  file f hm hf := ⟨(h.file f hm hf).1.congr hg, fun x hh => (h.file f hm hf).2 x (hx x hh)⟩
  other hno hh := by
    refine h.other hno ?_
    rw [Tree.has_iff] at hh ⊢
    rwa [← hg]

theorem not_inMirror_below (hno : ¬ (Mirrored S ex q ∧ S.IsDir q)) (hq : q ≠ []) (hqp : q <+: p)
    (hne : q ≠ p) : ¬ InMirror S ex p := by
  intro h
  exact hno ⟨h.1.above List.nil_prefix hqp hq, Tree.isDir_of_above h.1.has hqp hne⟩

theorem not_inMirror_of_drop (ho : orderFor S ex q = .drop) (hq : q ≠ []) (hqp : q <+: p) :
    ¬ InMirror S ex p := by
  have hself : ¬ InMirror S ex q := by
    rintro ⟨hm, hk⟩
    have hex : ex q = false := hm.kept q List.nil_prefix List.prefix_rfl
    obtain ⟨n, hn, -⟩ := hm.node
    rw [Tree.kind, hn] at hk
    rw [orderFor, hn, hex] at ho
    cases n <;> simp at hk ho
  by_cases he : q = p
  · exact he ▸ hself
  · exact not_inMirror_below (fun h => hself ⟨h.1, .inl h.2⟩) hq hqp he

theorem not_has_below (h : ∀ x, ¬ t.Has (q ++ [x])) (hqp : q <+: p) (hne : q ≠ p) : ¬ t.Has p := by
  obtain ⟨l, rfl⟩ := hqp
  obtain ⟨x, l, rfl⟩ := List.exists_cons_of_ne_nil (l := l) (by rintro rfl; simp at hne)
  exact fun hh => h x (Tree.has_of_isPrefix hh ⟨l, by simp⟩)

theorem not_has_in_file {f : File} (hf : t.get q = some (.file f)) (x : Name) : ¬ t.Has (q ++ [x]) := by
  intro hh
  have hk : t.kind q = some .file := Tree.kind_of_get hf
  have he := Tree.eq_of_leaf hk (by decide) hh (List.prefix_append q [x])
  simp at he

end Settled

/-- Part of the pending entries are handled, `rest` are not. `D` and `M` are the
destination and the state map from before. -/
structure Halfway (S : Tree) (ex : Path → Bool) (D : Tree) (M : StateMap) (rest : List PendingEntry)
    (t : Tree) (m : StateMap) : Prop where
  tracked : Tracked t m
  dirs : Backed {.dir} t m
  new : ∀ x, t.Has x → D.Has x ∨ S.Has x
  status : ∀ p, p ≠ [] → Settled S ex t p ∨
    ((∃ j ∈ rest, Handles j p) ∧ t.get p = D.get p ∧ m.lookup p = M.lookup p)

/-- What the last `Reconcile` left, as far as the next flush depends on it. -/
structure Basis (S : Tree) (ex : Path → Bool) (D : Tree) (M : StateMap) : Prop where
  backed : Backed .univ D M
  ordinary : Ordinary D
  honest : NoImpostor S ex D

section Step

variable {S : Tree} {ex : Path → Bool} {D : Tree} {M : StateMap} {i : PendingEntry}
  {rest : List PendingEntry} {t t' : Tree} {m m' : StateMap} {T : Set Time} {U : Perm} {p q : Path}

theorem Halfway.ready (h : Halfway S ex D M rest t m) (hD : Basis S ex D M) (hq : Mirrored S ex q)
    {f : File} (hf : S.get q = some (.file f))
    (hr : m.lookup q = some (fileState f) ∨ Reports t q f.info) :
    Reports t q f.info ∧ ∀ x, ¬ t.Has (q ++ [x]) := by
  rcases h.status q hq.ne_root with hs | ⟨-, hget, hlook⟩
  · exact hs.file f hq hf
  rcases hr with hm | hr
  · rw [hlook] at hm
    obtain ⟨g, hg, h1, h2, h3⟩ := hD.backed.holds q _ hm trivial
    have hg' : t.get q = some (.file g) := hget.trans hg
    exact ⟨reports_iff.2 ⟨_, hg', by simp, h1, h2, h3⟩, not_has_in_file hg'⟩
  · refine ⟨hr, fun x hx => ?_⟩
    obtain ⟨n, hn, -, h1, h2, h3⟩ := reports_iff.1 hr
    have hkind : D.kind q = some n.kind := Tree.kind_of_get (hget ▸ hn)
    rcases hD.ordinary.2 q _ hkind with hk | hk
    · -- a directory that passes for the file has nothing in it
      obtain ⟨a, rfl⟩ := Node.kind_eq_dir.1 hk
      rcases h.new _ hx with hx | hx
      · exact hD.honest q f a hq hf (hget.symm.trans hn) ⟨h1, h2, h3⟩ x hx
      · exact not_has_in_file hf x hx
    · obtain ⟨g, rfl⟩ := Node.kind_eq_file.1 hk
      exact not_has_in_file hn x hx

theorem Halfway.above (h : Halfway S ex D M (i :: rest) t m) (hap : ∀ j ∈ rest, Apart i j)
    (hp : p <+: i.rel) (hne : p ≠ i.rel) (h0 : p ≠ []) : Settled S ex t p := by
  rcases h.status p h0 with hs | ⟨⟨j, hj, hjp⟩, -⟩
  · exact hs
  · rcases List.mem_cons.1 hj with rfl | hj
    · exact absurd (prefix_antisymm hp hjp.below) hne
    · exact absurd (hjp.below.trans hp) (hap j hj).1

theorem mirrored_above (hq : S.Has q) (hex : ∀ d, d <+: q → d ≠ q → ex d = false) (hp : p <+: q)
    (hne : p ≠ q) (h0 : p ≠ []) : Mirrored S ex p := by
  obtain ⟨a, ha⟩ := Tree.isDir_iff.1 (Tree.isDir_of_above hq hp hne)
  refine ⟨List.nil_prefix, h0, ⟨_, ha, by simp⟩, fun d _ hd => hex d (hd.trans hp) ?_⟩
  rintro rfl
  exact hne (prefix_antisymm hp hd)

theorem Halfway.aboveKnown (h : Halfway S ex D M (i :: rest) t m) (hap : ∀ j ∈ rest, Apart i j)
    (hex : ∀ d, d <+: i.rel → d ≠ i.rel → ex d = false) (hS : S.Has i.rel) : AboveKnown m i.rel := by
  intro d hd hne h0
  have hdir := (h.above hap hd hne h0).dir (mirrored_above hS hex hd hne h0)
    (Tree.isDir_of_above hS hd hne)
  exact (h.tracked.iff d h0).1 hdir.has

theorem Apart.not_above (h : ∀ j ∈ rest, Apart i j) (hp : ∃ j ∈ rest, Handles j p) : ¬ p <+: i.rel := by
  obtain ⟨j, hj, hjp⟩ := hp
  exact fun hpi => (h j hj).1 (hjp.below.trans hpi)

/-- A path that waits for the next entry or a later one, and is not below the next,
waits for a later one. -/
theorem waits_of_not_below (hp : ∃ j ∈ i :: rest, Handles j p) (hno : ¬ i.rel <+: p) :
    ∃ j ∈ rest, Handles j p := by
  obtain ⟨j, hj, hjp⟩ := hp
  rcases List.mem_cons.1 hj with rfl | hj
  · exact absurd hjp.below hno
  · exact ⟨j, hj, hjp⟩

/-- **The next entry is dropped**, with all that is known below it. -/
theorem Halfway.swept (h : Halfway S ex D M (i :: rest) t m) (hap : ∀ j ∈ rest, Apart i j)
    (hi : i.rel ≠ []) (ho : orderFor S ex i.rel = .drop) (hknown : ∃ x, i.rel <+: x ∧ m.lookup x ≠ none)
    (hsw : Swept T (fun d => d = i.rel) t t' m m') : Halfway S ex D M rest t' m' where
  tracked := hsw.tracked h.tracked fun d hd => hd ▸ hi
  dirs := hsw.backed h.dirs
  new x hx := h.new x (Tree.shape_ne_none.1 fun hn => Tree.shape_ne_none.2 hx (hsw.shape_none hn))
  status p h0 := by
    have hless : ∀ x, t'.Has x → t.Has x := fun x hx =>
      Tree.shape_ne_none.1 fun hn => Tree.shape_ne_none.2 hx (hsw.shape_none hn)
    by_cases hip : i.rel <+: p
    · have hgone : ¬ t'.Has p := fun hh => Tree.shape_ne_none.2 hh (hsw.gone _ p rfl hip)
      exact .inl (.of_gone (not_inMirror_of_drop ho hi hip) hgone)
    have hkeep := hsw.keep p fun d hd hdp => hip (hd ▸ hdp)
    have hframe : p ≠ i.rel.dropLast → t'.get p = t.get p := fun hne =>
      hsw.frame p fun d hd => ⟨fun hdp => hip (hd ▸ hdp), fun he => hne (hd ▸ he)⟩
    rcases h.status p h0 with hs | ⟨hj, hget, hlook⟩
    · refine .inl ?_
      by_cases hpar : p = i.rel.dropLast
      · -- the directory that the entry was in is stamped; a file has no entries
        have hself : t.Has i.rel := by
          obtain ⟨x, hx, hm⟩ := hknown
          have hx0 : x ≠ [] := fun h' => hi (List.prefix_nil.1 (h' ▸ hx))
          exact Tree.has_of_isPrefix ((h.tracked.iff x hx0).2 hm) hx
        refine ⟨fun hm hd => ?_, fun f hm hf => ?_, fun hno hh => hs.other hno (hless p hh)⟩
        · rw [Tree.isDir_iff_shape, hkeep.1, ← Tree.isDir_iff_shape]
          exact hs.dir hm hd
        · refine absurd hself ?_
          rw [← List.dropLast_append_getLast hi, ← hpar]
          exact (hs.file f hm hf).2 _
      · exact hs.frame (hframe hpar) fun x hx => hless _ hx
    · have hj' := waits_of_not_below hj hip
      refine .inr ⟨hj', (hframe fun he => ?_).trans hget, hkeep.2.trans hlook⟩
      exact Apart.not_above hap hj' (he ▸ List.dropLast_prefix i.rel)

/-- The next entry is dropped and nothing is known of it. -/
theorem Halfway.unknown (h : Halfway S ex D M (i :: rest) t m) (hi : i.rel ≠ [])
    (ho : orderFor S ex i.rel = .drop) (hno : ∀ x, i.rel <+: x → m.lookup x = none) :
    Halfway S ex D M rest t m where
  tracked := h.tracked
  dirs := h.dirs
  new := h.new
  status p h0 := by
    by_cases hip : i.rel <+: p
    · have hgone : ¬ t.Has p := fun hh => (h.tracked.iff p h0).1 hh (hno p hip)
      exact .inl (.of_gone (not_inMirror_of_drop ho hi hip) hgone)
    · exact (h.status p h0).imp_right fun hw => ⟨waits_of_not_below hw.1 hip, hw.2⟩

theorem Touch.settled (ht : Touch S T U false q t m t' m') (h : Halfway S ex D M rest t m)
    (hD : Basis S ex D M) (hq : InMirror S ex q) : Settled S ex t' q := by
  cases ht with
  | @dirKnown a hS hm =>
    have hdir : S.IsDir q := Tree.isDir_iff.2 ⟨a, hS⟩
    exact .of_dir hdir hq.1 (h.dirs.holds q _ hm rfl)
  | @dirMade a _ hS hmade =>
    exact .of_dir (Tree.isDir_iff.2 ⟨a, hS⟩) hq.1 (hmade.isDir List.prefix_rfl)
  | @fileKnown f hS hm =>
    have hr := h.ready hD hq.1 hS (.inl hm)
    exact .of_file hS hq.1 hr.1 hr.2
  | @fileMatched f hS hr =>
    exact .of_file hS hq.1 hr (h.ready hD hq.1 hS (.inr hr)).2
  | @fileCopied f _ hS hc =>
    have hg : t'.get q = some (.file f) := Tree.get_file_iff_shape.2 (by rw [hc.shape, if_pos rfl])
    exact .of_file hS hq.1 (reports_file hg) (not_has_in_file hg)
  | @specialKept a hS _ =>
    have hk := hq.2
    rw [Tree.kind, hS] at hk
    simp at hk
  | specialRemoved _ hrm => cases hrm

/-- **The next entry is a directory or a file** that is backed up on its own. -/
theorem Halfway.touched (h : Halfway S ex D M (i :: rest) t m) (hD : Basis S ex D M)
    (hap : ∀ j ∈ rest, Apart i j) (hex : ∀ d, d <+: i.rel → d ≠ i.rel → ex d = false)
    (hq : InMirror S ex i.rel) (htree : i.tree = true → S.kind i.rel = some .file)
    (ht : Touch S T U false i.rel t m t' m') : Halfway S ex D M rest t' m' where
  tracked := ht.tracked h.tracked hq.1.ne_root (h.aboveKnown hap hex hq.1.has)
  dirs := ht.backed h.dirs hq.1.ne_root fun hf => by cases hf
  new x hx := by
    rcases ht.new hx with hx | hx
    · exact h.new x hx
    · exact .inr (Tree.has_of_isPrefix hq.1.has hx)
  status p h0 := by
    have hnc : ∀ x, ¬ Clears S false i.rel x := fun x hc => by cases hc.1
    have hself := ht.settled h hD hq
    by_cases he : p = i.rel
    · exact .inl (he ▸ hself)
    by_cases hpi : p <+: i.rel
    · have hm := mirrored_above hq.1.has hex hpi he h0
      have hdir := Tree.isDir_of_above hq.1.has hpi he
      exact .inl (.of_dir hdir hm (ht.kind (hnc p) ((h.above hap hpi he h0).dir hm hdir) (.inl rfl)))
    have hget : ∀ {x}, ¬ x <+: i.rel → t'.get x = t.get x := fun hx => ht.tree_frame hx (hnc _)
    rcases h.status p h0 with hs | ⟨⟨j, hj, hjp⟩, hg, hm⟩
    · refine .inl (hs.frame (hget hpi) fun x hx => ?_)
      rw [Tree.has_iff] at hx ⊢
      rwa [← hget fun hxi => hpi ((List.prefix_append p [x]).trans hxi)]
    rcases List.mem_cons.1 hj with rfl | hj
    · -- what waits below a tree entry that is a file: nothing is there
      rcases hjp with rfl | ⟨htr, hjp⟩
      · exact absurd rfl he
      obtain ⟨n, hn, hk⟩ := Option.map_eq_some_iff.1 (htree htr)
      obtain ⟨f, rfl⟩ := Node.kind_eq_file.1 hk
      have hleaf : ¬ (Mirrored S ex j.rel ∧ S.IsDir j.rel) := by
        rintro ⟨-, hd⟩
        rw [Tree.IsDir, htree htr] at hd
        cases hd
      exact .inl (.of_gone (not_inMirror_below hleaf hq.1.ne_root hjp (Ne.symm he))
        (not_has_below (hself.file f hq.1 hn).2 hjp (Ne.symm he)))
    · exact .inr ⟨⟨j, hj, hjp⟩, (hget hpi).trans hg,
        (ht.state_frame hq.1.ne_root he (hnc p)).trans hm⟩

theorem Reach.mirrored (h : Reach S ex q p) (hex : ∀ d, d <+: q → d ≠ q → ex d = false) :
    Mirrored S ex p := by
  refine ⟨List.nil_prefix, h.ne_root, h.node, fun d _ hd => ?_⟩
  rcases List.prefix_or_prefix_of_prefix h.below hd with hqd | hdq
  · exact h.kept d hqd hd
  · by_cases he : d = q
    · exact h.kept d (he ▸ List.prefix_rfl) hd
    · exact hex d hdq he

end Step

section Walk

variable {S : Tree} {ex : Path → Bool} {D : Tree} {M : StateMap} {q p : Path} {t t₁ t' : Tree}
  {m m₁ m' : StateMap} {T : Set Time} {U : Perm} {seen : List Path}

/-- A walk of `SyncTree` from `q` and the sweep after it. -/
structure TreeWalk (S : Tree) (ex : Path → Bool) (T : Set Time) (U : Perm) (q : Path) (t : Tree) (m : StateMap)
    (seen : List Path) (t₁ : Tree) (m₁ : StateMap) (t' : Tree) (m' : StateMap) : Prop where
  pass : Pass S ex T U true q t m seen t₁ m₁
  all : ∀ x, x ∈ seen ↔ Reach S ex q x
  start : q ∈ seen
  tracked : Tracked t₁ m₁
  swept : Swept T (Unseen m₁ q seen) t₁ t' m₁ m'

namespace TreeWalk

variable (h : TreeWalk S ex T U q t m seen t₁ m₁ t' m')

include h

theorem not_unseen_above (hp : p ∈ seen) {d : Path} (hd : Unseen m₁ q seen d) : ¬ d <+: p := fun hdp =>
  have hd0 : d ≠ [] := fun h0 => hd.2.2 (h0 ▸ h.tracked.rootState)
  hd.2.1 ((h.all d).2 (((h.all p).1 hp).above hd.1 hdp hd0))

theorem keep (hp : p ∈ seen) : t'.shape p = t₁.shape p :=
  (h.swept.keep p fun _ hd => h.not_unseen_above hp hd).1

theorem has_less {x : Path} (hx : t'.Has x) : t₁.Has x :=
  Tree.shape_ne_none.1 fun hn => Tree.shape_ne_none.2 hx (h.swept.shape_none hn)

theorem gone (hp : p ∉ seen) (hqp : q <+: p) (h0 : p ≠ []) : ¬ t'.Has p := fun hh =>
  have hm := (h.tracked.iff p h0).1 (h.has_less hh)
  Tree.shape_ne_none.2 hh (h.swept.gone p p ⟨hqp, hp, hm⟩ List.prefix_rfl)

theorem away (hqp : ¬ q <+: p) (hpq : ¬ p <+: q) : t'.get p = t.get p ∧ m'.lookup p = m.lookup p := by
  have hnc : ¬ Cleared S true seen p := by
    rintro ⟨y, hy, hc⟩
    exact hqp (((h.all y).1 hy).below.trans hc.2.2)
  have hpass : t₁.get p = t.get p := by
    refine h.pass.tree_frame (fun y hy hpy => ?_) hnc
    rcases List.prefix_or_prefix_of_prefix hpy ((h.all y).1 hy).below with hc | hc
    · exact hpq hc
    · exact hqp hc
  have hstate : m₁.lookup p = m.lookup p :=
    h.pass.state_frame (fun hp => hqp ((h.all p).1 hp).below) hnc
  constructor
  · rw [← hpass]
    refine h.swept.frame p fun d hd => ⟨fun hdp => hqp (hd.1.trans hdp), fun he => hqp ?_⟩
    -- the start is seen, so a swept path lies properly below it
    have hne : q ≠ d := fun hqd => hd.2.1 (hqd ▸ h.start)
    rw [he]
    obtain ⟨l, rfl⟩ := hd.1
    have hl : l ≠ [] := by
      rintro rfl
      simp at hne
    rw [List.dropLast_append_of_ne_nil hl]
    exact List.prefix_append q _
  · rw [← hstate]
    exact (h.swept.keep p fun d hd hdp => hqp (hd.1.trans hdp)).2

theorem dir_above (hqp : ¬ q <+: p) (hd : t.IsDir p) : t'.IsDir p := by
  have hnc : ¬ Cleared S true seen p := by
    rintro ⟨y, hy, hc⟩
    exact hqp (((h.all y).1 hy).below.trans hc.2.2)
  have hkeep := (h.swept.keep p fun d hd hdp => hqp (hd.1.trans hdp)).1
  rw [Tree.isDir_iff_shape, hkeep, ← Tree.isDir_iff_shape]
  exact h.pass.kind hnc hd (.inl rfl)

theorem file_left {f : File} (hp : p ∈ seen) (hf : S.get p = some (.file f)) (hg : t₁.get p = t.get p)
    (hx : ∀ x, ¬ t.Has (p ++ [x])) : t'.get p = t.get p ∧ ∀ x, ¬ t'.Has (p ++ [x]) := by
  have hx₁ : ∀ x, ¬ t₁.Has (p ++ [x]) := by
    intro x hh
    rcases h.pass.new hh with hh | ⟨y, hy, hxy⟩
    · exact hx x hh
    · exact not_has_in_file hf x (Tree.has_of_isPrefix ((h.all y).1 hy).has hxy)
  refine ⟨?_, fun x hh => hx₁ x (h.has_less hh)⟩
  rw [← hg]
  refine h.swept.frame p fun d hd => ⟨h.not_unseen_above hp hd, fun he => ?_⟩
  have hd0 : d ≠ [] := fun h0 => hd.2.2 (h0 ▸ h.tracked.rootState)
  have hhas := (h.tracked.iff d hd0).2 hd.2.2
  rw [← List.dropLast_append_getLast hd0, ← he] at hhas
  exact hx₁ _ hhas

end TreeWalk

variable {i : PendingEntry} {rest : List PendingEntry}

/-- A walk settles everything at and below its start. -/
theorem TreeWalk.settled (hw : TreeWalk S ex T U q t m seen t₁ m₁ t' m') (h : Halfway S ex D M rest t m)
    (hD : Basis S ex D M) (hex : ∀ d, d <+: q → d ≠ q → ex d = false) (hqp : q <+: p) (h0 : p ≠ []) :
    Settled S ex t' p := by
  by_cases hp : p ∈ seen
  · have hm := ((hw.all p).1 hp).mirrored hex
    have hdone := hw.pass.done hp
    obtain ⟨n, hn, hns⟩ := hm.node
    rw [Done, hn] at hdone
    cases n with
    | dir a =>
      have hdirs := (stepInv_dirs T).under.pass hw.pass (fun _ _ _ _ => trivial) h.dirs
      refine .of_dir (Tree.isDir_iff.2 ⟨a, hn⟩) hm ?_
      rw [Tree.isDir_iff_shape, hw.keep hp, ← Tree.isDir_iff_shape]
      exact hdirs.holds p _ hdone.1 rfl
    | file f =>
      have left : (m.lookup p = some (fileState f) ∨ Reports t p f.info) → t₁.get p = t.get p →
          Settled S ex t' p := by
        intro hr hg
        have hready := h.ready hD hm hn hr
        have hleft := hw.file_left hp hn hg hready.2
        exact .of_file hn hm (hready.1.congr hleft.1) hleft.2
      cases hdone.2 with
      | known hk hg => exact left (.inl hk) hg
      | matched hr hg => exact left (.inr hr) hg
      | copied hg =>
        have hg' := Tree.get_eq_of_shape (hw.keep hp) hg (by simp)
        exact .of_file hn hm (reports_file hg') (not_has_in_file hg')
    | special a =>
      refine .of_gone (fun hin => ?_) fun hh => ?_
      · have hk := hin.2
        rw [Tree.kind, hn] at hk
        simp at hk
      · exact Tree.not_has_iff.2 hdone.1 (hw.has_less hh)
    | symlink a => exact absurd rfl hns
  · refine .of_gone (fun hin => hp ((hw.all p).2 ?_)) (hw.gone hp hqp h0)
    exact ⟨hqp, h0, hin.1.node, fun d _ hd => hin.1.kept d List.nil_prefix hd⟩

/-- **The next entry is a directory** that is synced as a whole. -/
theorem Halfway.walked (h : Halfway S ex D M (i :: rest) t m) (hD : Basis S ex D M)
    (hap : ∀ j ∈ rest, Apart i j) (hex : ∀ d, d <+: i.rel → d ≠ i.rel → ex d = false)
    (hdir : S.IsDir i.rel) (hw : TreeWalk S ex T U i.rel t m seen t₁ m₁ t' m') :
    Halfway S ex D M rest t' m' where
  tracked := hw.swept.tracked hw.tracked fun d hd h0 => hd.2.2 (h0 ▸ hw.tracked.rootState)
  dirs := hw.swept.backed ((stepInv_dirs T).under.pass hw.pass (fun _ _ _ _ => trivial) h.dirs)
  new x hx := by
    rcases hw.pass.new (hw.has_less hx) with hx | ⟨y, hy, hxy⟩
    · exact h.new x hx
    · exact .inr (Tree.has_of_isPrefix ((hw.all y).1 hy).has hxy)
  status p h0 := by
    by_cases hip : i.rel <+: p
    · exact .inl (hw.settled h hD hex hip h0)
    by_cases hpi : p <+: i.rel
    · have hne : p ≠ i.rel := fun he => hip (he ▸ List.prefix_rfl)
      have hm := mirrored_above hdir.has hex hpi hne h0
      have hpd := Tree.isDir_of_above hdir.has hpi hne
      exact .inl (.of_dir hpd hm (hw.dir_above hip ((h.above hap hpi hne h0).dir hm hpd)))
    have haway := hw.away hip hpi
    rcases h.status p h0 with hs | ⟨hj, hg, hm⟩
    · refine .inl (hs.frame haway.1 fun x hx => ?_)
      have hxi : ¬ p ++ [x] <+: i.rel := fun hc => hpi ((List.prefix_append p [x]).trans hc)
      have hix : ¬ i.rel <+: p ++ [x] := by
        intro hc
        rcases List.prefix_concat_iff.1 hc with he | hc
        · exact hpi (he ▸ List.prefix_append p [x])
        · exact hip hc
      rw [Tree.has_iff] at hx ⊢
      rwa [← (hw.away hix hxi).1]
    · exact .inr ⟨waits_of_not_below hj hip, haway.1.trans hg, haway.2.trans hm⟩

end Walk

/-! ## One entry -/

/-- The call that `flushPending` makes for an entry. -/
def PendingEntry.call (e : PendingEntry) : Call := if e.tree then .tree e.rel.str else .rel e.rel.str

/-- How the call for an entry ends when it returns nil. -/
def EntryEnd (e : PendingEntry) (r r' : Run Trees) : Prop :=
  if e.tree then TreeEnd e.rel r r' else RelEnd e.rel r r'

section Entry

variable {r r' : Run Trees} {i : PendingEntry} {rest : List PendingEntry} {D : Tree} {M : StateMap}

theorem entry_ok (hr : r.Idle) (hi : i.rel ≠ []) (hok : i.call.exec.run r = .ok () r') :
    EntryEnd i r r' := by
  have hn : Names i.rel.str i.rel := names_str hi
  unfold PendingEntry.call at hok
  unfold EntryEnd
  split at hok
  · next ht =>
    rw [if_pos ht]
    exact (wp_syncTree hr.toQuiet hn hr.rootState).ok hok
  · next ht =>
    rw [if_neg ht]
    exact (wp_syncRel hr.toQuiet hn).ok hok

theorem EntryEnd.follows (h : EntryEnd i r r') : Follows r r' := by
  unfold EntryEnd at h
  split at h
  · exact h.moved.follows
  · exact h.moved.follows

theorem EntryEnd.keeps {J : Tree → StateMap → Prop} (hend : EntryEnd i r r')
    (h : StepInv r.times Unasked J) (hi : i.rel ≠ []) (h₀ : J r.dst r.state) : J r'.dst r'.state := by
  unfold EntryEnd at hend
  split at hend
  · exact h.under.treeEnd hend hi (fun _ _ _ _ => trivial) h₀
  · exact h.under.relEnd hend hi (fun _ => trivial) h₀

theorem Halfway.rel (h : Halfway r.src r.syncer.excluder.excluded D M (i :: rest) r.dst r.state)
    (hD : Basis r.src r.syncer.excluder.excluded D M) (hap : ∀ j ∈ rest, Apart i j) (hi : i.rel ≠ [])
    (hex : ∀ d, d <+: i.rel → d ≠ i.rel → r.syncer.excluder.excluded d = false)
    (htree : i.tree = true → ∀ info, orderFor r.src r.syncer.excluder.excluded i.rel ≠ .dir info)
    (hend : RelEnd i.rel r r') :
    Halfway r.src r.syncer.excluder.excluded D M rest r'.dst r'.state := by
  have hkept : ∀ {info}, (orderFor r.src r.syncer.excluder.excluded i.rel = .dir info ∨
      orderFor r.src r.syncer.excluder.excluded i.rel = .file info) →
      InMirror r.src r.syncer.excluder.excluded i.rel := by
    intro info ho
    have hmir : ∀ {n : Node}, r.syncer.excluder.excluded i.rel = false → r.src.get i.rel = some n →
        n.kind ≠ .symlink → Mirrored r.src r.syncer.excluder.excluded i.rel := by
      intro n hself hn hk
      refine ⟨List.nil_prefix, hi, ⟨n, hn, hk⟩, fun d _ hd => ?_⟩
      by_cases he : d = i.rel
      · exact he ▸ hself
      · exact hex d hd he
    rcases ho with ho | ho
    · obtain ⟨hself, a, hg, -⟩ := orderFor_dir ho
      exact ⟨hmir hself hg (by simp), .inl (Tree.kind_of_get hg)⟩
    · obtain ⟨hself, f, hg, -⟩ := orderFor_file ho
      exact ⟨hmir hself hg (by simp), .inr (Tree.kind_of_get hg)⟩
  unfold RelEnd at hend
  cases ho : orderFor r.src r.syncer.excluder.excluded i.rel with
  | drop =>
    rw [ho] at hend
    rcases hend with ⟨hno, rfl⟩ | ⟨hknown, t, n, m, rfl, hsw⟩
    · exact h.unknown hi ho hno
    · exact h.swept hap hi ho hknown hsw
  | fail e =>
    rw [ho] at hend
    exact hend.elim
  | dir info =>
    rw [ho] at hend
    obtain ⟨t, n, m, rfl, ht⟩ := hend
    exact h.touched hD hap hex (hkept (.inl ho)) (fun htr => absurd ho (htree htr info)) ht
  | file info =>
    rw [ho] at hend
    obtain ⟨t, n, m, rfl, ht⟩ := hend
    obtain ⟨-, f, hg, -⟩ := orderFor_file ho
    exact h.touched hD hap hex (hkept (.inr ho)) (fun _ => Tree.kind_of_get hg) ht

/-- **One entry.** -/
theorem Halfway.entry (h : Halfway r.src r.syncer.excluder.excluded D M (i :: rest) r.dst r.state)
    (hD : Basis r.src r.syncer.excluder.excluded D M) (hap : ∀ j ∈ rest, Apart i j) (hi : i.rel ≠ [])
    (hex : ∀ d, d <+: i.rel → d ≠ i.rel → r.syncer.excluder.excluded d = false)
    (hend : EntryEnd i r r') :
    Halfway r.src r.syncer.excluder.excluded D M rest r'.dst r'.state := by
  unfold EntryEnd at hend
  split at hend
  · unfold TreeEnd at hend
    split at hend
    · next info ho =>
      obtain ⟨seen, t₁, m₁, t, n, m, hfull, hsw, rfl⟩ := hend
      obtain ⟨hself, a, hg, -⟩ := orderFor_dir ho
      have hdir : r.src.IsDir i.rel := Tree.isDir_iff.2 ⟨a, hg⟩
      have hstart : i.rel ∈ seen := by
        refine (hfull.2 _).2 ⟨List.prefix_rfl, hi, ⟨_, hg, by simp⟩, fun d h1 h2 => ?_⟩
        exact prefix_antisymm h1 h2 ▸ hself
      have ht₁ := hfull.1.tracked h.tracked (h.aboveKnown hap hex hdir.has)
      exact h.walked hD hap hex hdir ⟨hfull.1, hfull.2, hstart, ht₁, hsw⟩
    · next hno => exact h.rel hD hap hi hex (fun _ info ho => hno info ho) hend
  · next htr => exact h.rel hD hap hi hex (fun htr' => absurd htr' htr) hend

end Entry

end Dockerset.Netfin

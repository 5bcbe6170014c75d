import Dockerset.Netfin.Pending
import Dockerset.Netfin.History
import Dockerset.Netfin.Writes

/-!
# Copies among writes, and the first `Reconcile` after them

A file that is modified while it is copied may leave a torn copy behind, or one
that is older than its state entry says. Both carry the modification time that
the file had when it was looked up, and the file has given that time up since.
`Watched` says so of the backup and of the state entry of a watched file, and
every step of the event loop keeps it, whatever the application does meanwhile.
Once the application has stopped, a `Reconcile` therefore skips the file only if
its backup is right.
-/

namespace Dockerset.Netfin
open Go Os Logic

/-- The backup's content goes with its modification time, and the state entry's time
is the file's only if the backup's content is. -/
def Faithful (known : Option PathState) : ShapeAssertion := fun past f s =>
  (∀ n, s = some n → ∃ g, n = .file g ∧ Dated past f g.mtime g.content) ∧
    ∀ st, known = some st → st.modTime ∈ past ∨
      (st.modTime = f.mtime ∧ ∃ g, s = some (.file g) ∧ g.content = f.content)

/-- `time` was the file's after the state entry had been made. -/
def Since (known : Option PathState) (time : Time) (past : List Time) (f : File) : Prop :=
  (time ∈ past ∧ ∀ st, known = some st → st.modTime ∈ past) ∨ time = f.mtime

/-- A live syncer that has not mistaken anything for the watched file. -/
structure Watched (p : Path) (ex : Excluder) (r : Run Trees) : Prop where
  world : At p (Shaped p (Faithful (r.state.lookup p))) r.world
  root : r.state.lookup [] = none
  live : r.syncer.dryRun = false
  excluder : r.syncer.excluder = ex

section Assertions

variable {known : Option PathState} {time : Time}

theorem Faithful.lasting (known : Option PathState) : Lasting (Faithful known) := by
  rintro past f past' f' s hl ⟨hbackup, hstate⟩
  constructor
  · intro n hn
    obtain ⟨g, rfl, hg⟩ := hbackup n hn
    exact ⟨g, rfl, hg.later hl⟩
  · intro st hst
    rcases hstate st hst with h | ⟨htime, g, hg, hcontent⟩
    · exact .inl (hl.1 h)
    · rcases hl.2 with ⟨hsame, hkept⟩ | hgone
      · exact .inr ⟨htime.trans hsame.symm, g, hg, hcontent.trans hkept.symm⟩
      · exact .inl (htime ▸ hgone)

theorem Faithful.since_lasting (known : Option PathState) (time : Time) :
    Lasting fun past f s => Faithful known past f s ∧ Since known time past f := by
  rintro past f past' f' s hl ⟨hs, hsince⟩
  refine ⟨Faithful.lasting known _ _ _ _ _ hl hs, ?_⟩
  rcases hsince with ⟨h, hknown⟩ | htime
  · exact .inl ⟨hl.1 h, fun st hst => hl.1 (hknown st hst)⟩
  · rcases hl.2 with ⟨hsame, -⟩ | hgone
    · exact .inr (htime.trans hsame.symm)
    · refine .inl ⟨htime ▸ hgone, fun st hst => ?_⟩
      rcases hs.2 st hst with h | ⟨h, -⟩
      · exact hl.1 h
      · exact h ▸ hgone

/-- A backup that goes with the time that is remembered for it. -/
theorem faithful_of_dated {past : List Time} {f g : File} {st : PathState}
    (h : Dated past f g.mtime g.content) (hst : st.modTime = g.mtime) :
    Faithful (some st) past f (some (.file g)) := by
  constructor
  · rintro n hn
    cases hn
    exact ⟨g, rfl, h⟩
  · rintro _ hs
    cases hs
    rw [hst]
    exact h.imp_right fun hd => ⟨hd.1, g, rfl, hd.2⟩

/-- Nothing is known of a backup that is gone. -/
theorem Faithful.gone {past : List Time} {f : File} {s : Option Node} (h : Faithful known past f s)
    (c : Prop) [Decidable c] : Faithful (if c then none else known) past f (if c then none else s) := by
  by_cases hc : c
  · rw [if_pos hc, if_pos hc]
    constructor
    · rintro n hn
      cases hn
    · rintro st hst
      cases hst
  · rw [if_neg hc, if_neg hc]
    exact h

end Assertions

section Steps

variable {p q : Path} {ex : Excluder} {r : Run Trees} {α : Type}

theorem watched_liftSys {x : Sys Trees α}
    (h : ∀ φ, Lasting φ → Preserves (At p (Shaped p φ)) x) : Preserves (Watched p ex) (liftSys x) := by
  intro r hr
  rw [wp_liftSys_iff]
  exact (h _ (Faithful.lasting _) _ hr.world).mono (fun _ _ hw => ⟨hw, hr.root, hr.live, hr.excluder⟩)
    fun _ _ hw => ⟨hw, hr.root, hr.live, hr.excluder⟩

theorem watched_getSyncer : Preserves (Watched p ex) getSyncer := fun _ h => h

theorem watched_setState {m : StateMap} {step : Syncer → Syncer} (hlive : r.syncer.dryRun = false)
    (hex : r.syncer.excluder = ex)
    (hstep : step r.syncer = { r.syncer with state := m }) (hroot : m.lookup [] = none)
    (hw : At p (Shaped p (Faithful (m.lookup p))) r.world) {Q : Unit → Run Trees → Prop}
    {E : Err → Run Trees → Prop} (hQ : ∀ r', Watched p ex r' → Q () r') :
    WP (modifySyncer step) Q E r := by
  refine hQ _ ⟨?_, ?_, ?_, ?_⟩
  · change At p (Shaped p (Faithful ((step r.syncer).state.lookup p))) r.world
    rw [hstep]
    exact hw
  · change (step r.syncer).state.lookup [] = none
    rw [hstep]
    exact hroot
  · change (step r.syncer).dryRun = false
    rw [hstep]
    exact hlive
  · change (step r.syncer).excluder = ex
    rw [hstep]
    exact hex

theorem remember_live (s : Syncer) (h : s.dryRun = false) (x : Path) (st : PathState) :
    s.remember x st = { s with state := s.state.insert x st } := by
  rw [Syncer.remember, if_neg (by simp [h])]

theorem forget_live (s : Syncer) (h : s.dryRun = false) (x : Path) :
    s.forget x = { s with state := s.state.erase x } := by
  rw [Syncer.forget, if_neg (by simp [h])]

theorem forgetTree_live (s : Syncer) (h : s.dryRun = false) (x : Path) :
    s.forgetTree x = { s with state := StateMap.prune s.state x } := by
  rw [Syncer.forgetTree, if_neg (by simp [h])]

theorem watched_remember {st : PathState} (hq : q ≠ []) (hne : p ≠ q) :
    Preserves (Watched p ex) (rememberState q st) := by
  intro r hr
  refine watched_setState hr.live hr.excluder (remember_live _ hr.live q st) ?_ ?_ fun _ h => h
  · rw [AList.lookup_insert_eq_ite, if_neg hq.symm]
    exact hr.root
  · rw [AList.lookup_insert_eq_ite, if_neg hne]
    exact hr.world

theorem watched_syncDir (info : Info) (hq : q ≠ []) (hpq : ¬ p <+: q) :
    Preserves (Watched p ex) (syncDir q info) := by
  have hne : p ≠ q := fun he => hpq (he ▸ List.prefix_rfl)
  unfold syncDir
  refine preserves_bind (preserves_bind watched_getSyncer fun _ => preserves_pure _) fun b => ?_
  refine preserves_ite (fun _ => preserves_pure _) fun _ => ?_
  refine preserves_bind ?_ fun _ => watched_remember hq hne
  unfold ensureDir
  rw [orFail_joinUnder, pure_bind]
  refine preserves_bind watched_getSyncer fun s => ?_
  refine preserves_ite (fun _ => preserves_pure _) fun _ => ?_
  exact watched_liftSys fun _ hφ => preserves_mkdirAll hφ _ hpq

/-- **A backup is removed together with what is known of it.** -/
theorem watched_removeBackupPath (hq : q ≠ []) : Preserves (Watched p ex) (removeBackupPath q ⟨.dst, q⟩) := by
  intro r hr
  simp only [removeBackupPath, getSyncer, WP.bind_iff, WP.get_iff, WP.pure_iff, wp_liftSys_iff, hr.live]
  refine (wp_removePath_among (ψ := Faithful ((StateMap.prune r.state q).lookup p)) (Faithful.lasting _)
    (Faithful.lasting _) hq hr.world fun past f s hs => ?_).mono (fun _ w' hw => ?_)
    fun _ w' hw => ⟨hw, hr.root, hr.live, hr.excluder⟩
  · rw [lookup_prune hq]
    exact hs.gone _
  · exact watched_setState (r := { r with world := w' }) hr.live hr.excluder (forgetTree_live _ hr.live q)
      (lookup_prune_root hq hr.root) hw fun _ h => h

theorem watched_removeKnownBackupPath (hq : q ≠ []) :
    Preserves (Watched p ex) (removeKnownBackupPath q ⟨.dst, q⟩) := by
  unfold removeKnownBackupPath
  refine preserves_bind watched_getSyncer fun s => ?_
  exact preserves_ite (fun _ => preserves_pure _) fun _ => watched_removeBackupPath hq

theorem watched_removeDeletedPath (root : Path) (seen : List Path) (rel : Path) :
    Preserves (Watched p ex) (removeDeletedPath root seen rel) := by
  intro r hr
  unfold removeDeletedPath
  refine preserves_ite (fun _ => preserves_pure _) (fun _ => ?_) r hr
  refine preserves_ite (fun _ => preserves_pure _) fun _ => ?_
  intro r hr
  simp only [hasState, getSyncer, WP.bind_iff, WP.get_iff, WP.pure_iff]
  cases hknown : r.syncer.state.lookup rel with
  | none => exact hr
  | some st =>
    -- the root is never remembered
    have hrel : rel ≠ [] := by
      rintro rfl
      rw [hr.root] at hknown
      cases hknown
    rw [orFail_joinUnder, pure_bind]
    exact watched_removeBackupPath hrel r hr

theorem watched_removeDeletedFromStateUnder (root : Path) (seen : List Path) :
    Preserves (Watched p ex) (removeDeletedFromStateUnder root seen) := by
  refine preserves_bind watched_getSyncer fun s => ?_
  exact preserves_forM fun rel _ => watched_removeDeletedPath root seen rel

theorem watched_deepRemoveFn (seen : List Path) (q : Path) (k : Kind) :
    Preserves (Watched p ex) (deepRemoveFn seen q (.ok k)) := by
  unfold deepRemoveFn
  refine preserves_ite (fun _ => preserves_pure _) fun hq => ?_
  refine preserves_ite (fun _ => preserves_pure _) fun _ => ?_
  refine preserves_ite (fun _ => ?_) fun _ => ?_
  · intro r hr
    simp only [WP.bind_iff, wp_liftSys_iff, WP.pure_iff]
    refine (wp_removeAll_among (ψ := Faithful ((StateMap.prune r.state q).lookup p))
      (Faithful.lasting _) hq hr.world fun past f s hs => ?_).mono (fun _ w' hw => ?_)
      fun _ w' hw => ⟨hw, hr.root, hr.live, hr.excluder⟩
    · rw [lookup_prune hq]
      exact hs.gone _
    · exact watched_setState (r := { r with world := w' }) hr.live hr.excluder (forgetTree_live _ hr.live q)
        (lookup_prune_root hq hr.root) hw fun _ h => h
  · intro r hr
    simp only [WP.bind_iff, wp_liftSys_iff, WP.pure_iff]
    have hforgot : ∀ x, (r.state.erase q).lookup x = if q = x then none else r.state.lookup x := by
      intro x
      rw [AList.lookup_erase_eq_ite]
      simp only [eq_comm]
    refine (wp_remove_among (ψ := Faithful ((r.state.erase q).lookup p)) (Faithful.lasting _) hq hr.world
      fun past f s hs => ?_).mono (fun _ w' hw => ?_) fun _ w' hw => ⟨hw, hr.root, hr.live, hr.excluder⟩
    · rw [hforgot]
      exact hs.gone _
    · refine watched_setState (r := { r with world := w' }) hr.live hr.excluder (forget_live _ hr.live q) ?_ hw
        fun _ h => h
      rw [hforgot, if_neg hq]
      exact hr.root

theorem watched_sweepDestination (seen : List Path) :
    Preserves (Watched p ex) (removeDeletedByWalkingDestination seen) := by
  have hguided : Guided (deepRemoveFn seen) .dst (Watched p ex) fun _ _ => True := by
    refine ⟨fun q k _ => watched_deepRemoveFn seen q k, fun _ _ => preserves_throw _, fun q r _ hr => ?_⟩
    refine (watched_liftSys (fun _ hφ => preserves_attempt (preserves_query (hφ.shaped p) _)) r hr).mono
      ?_ fun _ _ h => h
    exact fun _ _ h => ⟨h, fun _ _ _ _ => trivial⟩
  unfold removeDeletedByWalkingDestination
  refine preserves_bind watched_getSyncer fun s => ?_
  refine preserves_ite (fun _ => preserves_pure _) fun _ => hguided.walk fun r hr => ?_
  refine (watched_liftSys (fun _ hφ => preserves_attempt (preserves_query (hφ.shaped p) _)) r hr).mono
    ?_ fun _ _ h => h
  exact fun _ _ h => ⟨h, fun _ _ => trivial⟩

/-! ### Looking a file up and copying it -/

/-- What was looked up at `q`: if it is the watched file or lies below it, it is the
watched file, and `info` is of a version not older than the state entry. -/
def Looked (p q : Path) (info : Info) (r : Run Trees) : Prop :=
  p <+: q → p = q ∧ info.kind = .file ∧
    At p (Shaped p fun past f s =>
      Faithful (r.state.lookup p) past f s ∧ Since (r.state.lookup p) info.mtime past f) r.world

theorem wp_lstat_among (hq : q ≠ []) (hr : Watched p ex r) :
    WP (liftSys (lstat ⟨.src, q⟩)) (fun info r' => Watched p ex r' ∧ Looked p q info r')
      (fun _ => Watched p ex) r := by
  rw [wp_liftSys_iff]
  refine (At.survives ((Faithful.lasting _).shaped p)).wp_query hr.world (fun w₁ info h₁ hx => ?_)
    fun w₁ _ h₁ _ => ⟨h₁, hr.root, hr.live, hr.excluder⟩
  refine ⟨⟨h₁, hr.root, hr.live, hr.excluder⟩, fun hpq => ?_⟩
  obtain ⟨past, f, hline, htmp, hs⟩ := h₁
  change w₁.disk.src.lstat q = _ at hx
  rw [Root.lstat_eq (.inl hq)] at hx
  have hleaf : w₁.srcTree.kind p = some .file := Tree.kind_of_get hline.file
  have hhas : w₁.srcTree.Has q := by
    by_contra hno
    rw [Tree.lstat_of_none (Tree.not_has_iff.1 hno)] at hx
    cases hx
  obtain rfl := Tree.eq_of_leaf hleaf (by decide) hhas hpq
  rw [Tree.lstat_of_get hline.file] at hx
  cases hx
  exact ⟨rfl, rfl, past, f, hline, htmp, hs, .inr rfl⟩

/-- The comparison with the backup: a match means that the backup's content goes
with the time that has been looked up. -/
theorem wp_fileMetadataMatches_among {w : World Trees} {φ : ShapeAssertion} {info : Info}
    {E : Err → World Trees → Prop} (hφ : Lasting φ) (h : At p (Shaped p φ) w)
    (hfaithful : ∀ past f s, φ past f s → ∃ known, Faithful known past f s) :
    WP (fileMetadataMatches ⟨.dst, p⟩ info)
      (fun same w' => At p (Shaped p φ) w' ∧
        (same = true → At p (Shaped p (Faithful (some (pathStateFromInfo .file info)))) w')) E w := by
  rw [fileMetadataMatches, WP.bind_iff, wp_attempt_iff]
  refine (At.survives (hφ.shaped p)).wp_query h (fun w₁ i h₁ hx => ⟨h₁, fun hsame => ?_⟩)
    fun w₁ e h₁ _ => ⟨h₁, fun hsame => by cases hsame⟩
  change w₁.dstTree.stat p = _ at hx
  obtain ⟨n, hn, -, rfl⟩ := Tree.stat_eq_ok.1 hx
  obtain ⟨past, f, hline, htmp, hs⟩ := h₁
  obtain ⟨known, hbackup, -⟩ := hfaithful past f _ hs
  have hshape : w₁.dstTree.shape p = some n.shape := by rw [Tree.shape, hn]; rfl
  obtain ⟨g, hg, hdated⟩ := hbackup _ hshape
  rw [hg] at hshape
  have hget := Tree.get_file_iff_shape.2 hshape
  rw [hn] at hget
  cases hget
  simp only [Bool.and_eq_true, beq_iff_eq] at hsame
  refine ⟨past, f, hline, htmp, ?_⟩
  change Faithful _ past f (w₁.dstTree.shape p)
  rw [hshape]
  exact faithful_of_dated hdated hsame.2.symm

theorem watched_copyRel_other (info : Info) (hq : q ≠ []) (hpq : ¬ p <+: q) :
    Preserves (Watched p ex) (copyRel q info) := by
  have hne : p ≠ q := fun he => hpq (he ▸ List.prefix_rfl)
  intro r hr
  simp only [copyRel, stateMatches, getSyncer, WP.bind_iff, WP.get_iff, WP.pure_iff]
  split
  · exact hr
  simp only [orFail_joinUnder, WP.bind_iff, WP.pure_iff]
  have hmatch : Preserves (Watched p ex) (liftSys (fileMetadataMatches ⟨.dst, q⟩ info)) := by
    refine watched_liftSys fun _ hφ => preserves_bind (preserves_attempt (preserves_query (hφ.shaped p) _))
      fun x => ?_
    cases x <;> exact preserves_pure _
  refine (hmatch r hr).mono (fun same r₁ hr₁ => ?_) fun _ _ h => h
  split
  · exact watched_remember hq hne r₁ hr₁
  simp only [WP.bind_iff, WP.get_iff, WP.pure_iff, wp_liftSys_iff, hr₁.live]
  refine (wp_atomicCopyFile_among (ψ := Faithful (r₁.state.lookup p)) (Faithful.lasting _)
    (Faithful.lasting _) hq (fun h => hpq (h.trans (List.dropLast_prefix q))) hr₁.world
    (fun he => absurd he.symm hne)
    fun past f s bytes hs _ => ?_).mono (fun _ w' hw => ?_) fun _ w' hw => ⟨hw, hr₁.root, hr₁.live, hr₁.excluder⟩
  · rw [if_neg hne]
    exact hs
  · exact watched_remember hq hne { r₁ with world := w' } ⟨hw, hr₁.root, hr₁.live, hr₁.excluder⟩

/-- **A copy of the watched file.** -/
theorem watched_copyRel_self {info : Info} (hp : p ≠ []) (hr : Watched p ex r) (hlook : Looked p p info r) :
    WP (copyRel p info) (fun _ => Watched p ex) (fun _ => Watched p ex) r := by
  obtain ⟨-, -, hw⟩ := hlook List.prefix_rfl
  let st := pathStateFromInfo .file info
  have hφ := Faithful.since_lasting (r.state.lookup p) info.mtime
  -- remembering the file, once its backup goes with the time that was looked up
  have hremember : ∀ w', At p (Shaped p (Faithful (some st))) w' →
      WP (rememberState p st) (fun _ => Watched p ex) (fun _ => Watched p ex)
        { r with world := w' } := by
    intro w' hw'
    refine watched_setState (r := { r with world := w' }) hr.live hr.excluder (remember_live _ hr.live p st) ?_ ?_
      fun _ h => h
    · rw [AList.lookup_insert_eq_ite, if_neg hp.symm]
      exact hr.root
    · rw [AList.lookup_insert]
      exact hw'
  simp only [copyRel, stateMatches, getSyncer, WP.bind_iff, WP.get_iff, WP.pure_iff]
  split
  · exact hr
  simp only [orFail_joinUnder, WP.bind_iff, WP.pure_iff, wp_liftSys_iff]
  refine (wp_fileMetadataMatches_among hφ hw fun past f s hs => ⟨_, hs.1⟩).mono ?_
    fun _ w' hw' => hw'
  rintro same w₁ ⟨h₁, hsame⟩
  cases same with
  | true => exact hremember w₁ (hsame rfl)
  | false =>
    simp only [Bool.false_eq_true, if_false, WP.bind_iff, WP.get_iff, WP.pure_iff, wp_liftSys_iff]
    change WP (atomicCopyFile _ _ _ _ r.syncer.dryRun) _ _ w₁
    rw [hr.live]
    refine (wp_atomicCopyFile_among (ψ := Faithful (some st)) hφ (Faithful.lasting _) hp
      (not_prefix_dropLast hp) h₁ (fun _ past f s hs => hs.2.imp_left And.left)
      fun past f s bytes _ hdated => ?_).mono (fun _ w₂ h₂ => hremember w₂ h₂) fun _ w₂ h₂ => ?_
    · rw [if_pos rfl]
      exact faithful_of_dated (hdated rfl) rfl
    · exact ⟨h₂.mono fun _ _ _ _ hw => ⟨hw.1, hw.2.1⟩, hr.root, hr.live, hr.excluder⟩

theorem watched_copyRel {info : Info} (hq : q ≠ []) (hr : Watched p ex r) (hlook : Looked p q info r) :
    WP (copyRel q info) (fun _ => Watched p ex) (fun _ => Watched p ex) r := by
  by_cases hpq : p <+: q
  · obtain ⟨rfl, -⟩ := hlook hpq
    exact watched_copyRel_self hq hr hlook
  · exact watched_copyRel_other info hq hpq r hr

/-! ### The walk through the source -/

/-- An entry that a listing may show: the watched file is a file, and nothing is
below it. -/
def Listed (p q : Path) (k : Kind) : Prop := p <+: q → p = q ∧ k = .file

theorem watched_seen (l : List Path) (hr : Watched p ex r) : Watched p ex { r with seen := l } :=
  ⟨hr.world, hr.root, hr.live, hr.excluder⟩

theorem watched_mirrorFn {special : Path → SyncM Trees Unit} {k : Kind}
    (hspecial : ∀ q, q ≠ [] → Preserves (Watched p ex) (special q)) (hk : Listed p q k) :
    Preserves (Watched p ex) (mirrorFn special q (.ok k)) := by
  unfold mirrorFn
  refine preserves_bind (watched_liftSys fun _ hφ => preserves_pollCtx (hφ.shaped p)) fun _ => ?_
  refine preserves_ite (fun _ => preserves_pure _) fun hq => ?_
  refine preserves_bind watched_getSyncer fun s => ?_
  refine preserves_ite (fun _ => preserves_pure _) fun _ => ?_
  intro r hr
  rw [WP.bind_iff]
  refine (wp_lstat_among hq hr).mono ?_ fun _ _ h => h
  rintro info r₁ ⟨hr₁, hlook⟩
  split
  · exact hr₁
  rw [WP.bind_iff]
  have hr₂ : Watched p ex { r₁ with seen := r₁.seen ++ [q] } := watched_seen _ hr₁
  change WP _ _ _ { r₁ with seen := r₁.seen ++ [q] }
  split
  · next hdir =>
    have hpq : ¬ p <+: q := fun hpq => by
      have hfile := (hk hpq).2
      rw [hdir] at hfile
      cases hfile
    exact preserves_bind (watched_syncDir info hq hpq) (fun _ => preserves_pure _) _ hr₂
  split
  · exact preserves_bind (hspecial q hq) (fun _ => preserves_pure _) _ hr₂
  · rw [WP.bind_iff]
    exact watched_copyRel hq hr₂ hlook

theorem wp_readDir_among (hdir : Listed p q .dir) (hr : Watched p ex r) :
    WP (liftSys (attempt (readDir ⟨.src, q⟩)))
      (fun l r' => Watched p ex r' ∧ ∀ es, l = .ok es → ∀ e ∈ es, Listed p (q ++ [e.1]) e.2)
      (fun _ => Watched p ex) r := by
  have hpq : ¬ p <+: q := fun hpq => by cases (hdir hpq).2
  rw [wp_liftSys_iff, wp_attempt_iff]
  refine (At.survives ((Faithful.lasting _).shaped p)).wp_query hr.world (fun w₁ l h₁ hx => ?_)
    fun w₁ _ h₁ _ => ⟨⟨h₁, hr.root, hr.live, hr.excluder⟩, fun es he => by cases he⟩
  refine ⟨⟨h₁, hr.root, hr.live, hr.excluder⟩, fun es he e hmem hpre => ?_⟩
  cases he
  obtain ⟨past, f, hline, -⟩ := h₁
  have hpath : p = q ++ [e.1] := (List.prefix_concat_iff.1 hpre).resolve_right hpq
  change w₁.srcTree.readDir q = _ at hx
  unfold Tree.readDir at hx
  split at hx
  · cases hx
    obtain ⟨x, -, rfl⟩ := List.mem_map.1 hmem
    refine ⟨hpath, ?_⟩
    rw [← hpath, Tree.kind_of_get hline.file]
    rfl
  · cases hx
  · cases hx

theorem watched_mirrorWalk {special : Path → SyncM Trees Unit} (hp : p ≠ [])
    (hspecial : ∀ q, q ≠ [] → Preserves (Watched p ex) (special q)) (q : Path) :
    Preserves (Watched p ex) (mirrorWalk special q) := by
  have hguided : Guided (mirrorFn special) .src (Watched p ex) (Listed p) :=
    ⟨fun q k hk => watched_mirrorFn hspecial hk, fun _ _ => preserves_throw _,
      fun q r hdir hr => wp_readDir_among hdir hr⟩
  unfold mirrorWalk
  refine preserves_bind (preserves_modify fun r hr => watched_seen [] hr) fun _ => ?_
  refine preserves_bind (hguided.walk fun r hr => ?_) fun _ =>
    preserves_bind preserves_get fun _ => preserves_pure _
  by_cases hq : q = []
  · refine (watched_liftSys (fun _ hφ => preserves_attempt (preserves_query (hφ.shaped p) _)) r hr).mono
      ?_ fun _ _ h => h
    refine fun _ _ h => ⟨h, fun _ _ hpq => ?_⟩
    rw [hq] at hpq
    exact absurd (List.prefix_nil.1 hpq) hp
  · have hlook := wp_lstat_among hq hr
    rw [wp_liftSys_iff] at hlook
    rw [wp_liftSys_iff, wp_attempt_iff]
    refine hlook.mono ?_ fun e _ h => ⟨h, fun _ he => by cases he⟩
    rintro info _ ⟨hr', hlooked⟩
    refine ⟨hr', fun i hi hpq => ?_⟩
    cases hi
    exact ⟨(hlooked hpq).1, (hlooked hpq).2.1⟩

/-! ### The calls -/

theorem watched_removeSpecial (hq : q ≠ []) : Preserves (Watched p ex) (removeSpecial q) := by
  unfold removeSpecial
  rw [orFail_joinUnder, pure_bind]
  exact watched_removeBackupPath hq

theorem watched_reconcile (hp : p ≠ []) : Preserves (Watched p ex) reconcile := by
  have hfinish : Preserves (Watched p ex) (modifySyncer fun s => { s with reconciled := true }) :=
    preserves_modify fun r hr => ⟨hr.world, hr.root, hr.live, hr.excluder⟩
  unfold reconcile
  refine preserves_bind watched_getSyncer fun s => ?_
  refine preserves_bind (watched_mirrorWalk hp (fun _ _ => preserves_pure _) []) fun seen => ?_
  cases s.reconciled with
  | false => exact preserves_bind (watched_sweepDestination seen) fun _ => hfinish
  | true => exact preserves_bind (watched_removeDeletedFromStateUnder [] seen) fun _ => hfinish

/-- The part that `SyncRel` and `SyncTree` share. -/
theorem watched_lookAt {go : Except Err Info → SyncM Trees Unit} (hq : q ≠ [])
    (hok : ∀ info r, Watched p ex r → Looked p q info r →
      WP (go (.ok info)) (fun _ => Watched p ex) (fun _ => Watched p ex) r)
    (herr : ∀ e, Preserves (Watched p ex) (go (.error e))) :
    Preserves (Watched p ex) (do
      if (← getSyncer).excluder.excluded q then removeKnownBackupPath q ⟨.dst, q⟩
      else do
        if ← liftSys (hasSymlinkInPath ⟨.src, q⟩) then removeKnownBackupPath q ⟨.dst, q⟩
        else go (← liftSys (attempt (lstat ⟨.src, q⟩)))) := by
  have hdrop : Preserves (Watched p ex) (removeKnownBackupPath q ⟨.dst, q⟩) :=
    watched_removeKnownBackupPath hq
  refine preserves_bind watched_getSyncer fun s => ?_
  refine preserves_ite (fun _ => hdrop) fun _ => ?_
  refine preserves_bind (watched_liftSys fun _ hφ => preserves_symlinkBelow (hφ.shaped p) _ _ _) fun b => ?_
  refine preserves_ite (fun _ => hdrop) fun _ => ?_
  intro r hr
  have hlook := wp_lstat_among hq hr
  rw [wp_liftSys_iff] at hlook
  rw [WP.bind_iff, wp_liftSys_iff, wp_attempt_iff]
  exact hlook.mono (fun info _ h => hok info _ h.1 h.2) fun e _ h => herr e _ h

theorem watched_syncRel {s : Str} (hs : Names s q) : Preserves (Watched p ex) (syncRel s) := by
  obtain ⟨hdot, hc, hq⟩ := hs
  have hdrop : Preserves (Watched p ex) (removeKnownBackupPath q ⟨.dst, q⟩) :=
    watched_removeKnownBackupPath hq
  rw [syncRel, if_neg hdot]
  simp only [orFail_joinUnder_clean hc, pure_bind]
  rw [hc]
  refine watched_lookAt hq (fun info r hr hlook => ?_) fun e => ?_
  · dsimp only
    split
    · exact hdrop r hr
    split
    · next hdir =>
      have hpq : ¬ p <+: q := fun hpq => by
        have hfile := (hlook hpq).2.1
        rw [hdir] at hfile
        cases hfile
      exact watched_syncDir info hq hpq r hr
    split
    · exact hdrop r hr
    · exact watched_copyRel hq hr hlook
  · exact preserves_ite (fun _ => hdrop) fun _ => preserves_throw _

theorem watched_syncTree {s : Str} (hp : p ≠ []) (hs : Names s q) :
    Preserves (Watched p ex) (syncTree s) := by
  obtain ⟨hdot, hc, hq⟩ := hs
  have hdrop : Preserves (Watched p ex) (removeKnownBackupPath q ⟨.dst, q⟩) :=
    watched_removeKnownBackupPath hq
  rw [syncTree, if_neg hdot]
  simp only [orFail_joinUnder_clean hc, pure_bind]
  rw [hc]
  refine watched_lookAt hq (fun info r hr hlook => ?_) fun e => ?_
  · dsimp only
    split
    · have hstr : (Cleaned.mk false 0 q).str = q.str := Cleaned.str_of_confined rfl
      rw [hstr]
      exact watched_syncRel (names_str hq) r hr
    · exact preserves_bind (watched_mirrorWalk hp (fun _ hx => watched_removeSpecial hx) q)
        (fun seen => watched_removeDeletedFromStateUnder q seen) r hr
  · exact preserves_ite (fun _ => hdrop) fun _ => preserves_throw _

theorem watched_flushEntry (hp : p ≠ []) (item : PendingEntry) :
    Preserves (Watched p ex) (flushEntry item) := by
  by_cases hitem : item.rel = []
  · -- both calls return at once for the root
    have hdot : item.rel.str = ['.'] := Path.str_eq_dot.2 hitem
    refine preserves_ite (fun _ => preserves_tryCall ?_) fun _ => preserves_tryCall ?_
    · rw [syncTree, if_pos hdot]
      exact preserves_pure ()
    · rw [syncRel, if_pos hdot]
      exact preserves_pure ()
  · have hs : Names item.rel.str item.rel := names_str hitem
    exact preserves_ite (fun _ => preserves_tryCall (watched_syncTree hp hs))
      fun _ => preserves_tryCall (watched_syncRel hs)

theorem watched_flushEntries (hp : p ≠ []) (items : List PendingEntry) :
    Preserves (Watched p ex) (flushEntries items) := by
  induction items with
  | nil => exact preserves_pure _
  | cons item items ih =>
    refine preserves_bind (watched_liftSys fun _ hφ =>
      preserves_attempt (preserves_pollCtx (hφ.shaped p))) fun x => ?_
    cases x with
    | error e => exact preserves_pure _
    | ok _ => exact preserves_bind (watched_flushEntry hp item) fun _ => preserves_bind ih fun _ =>
        preserves_pure _

theorem watched_flushPending (hp : p ≠ []) : Preserves (Watched p ex) flushPending := by
  unfold flushPending
  refine preserves_bind watched_getSyncer fun s => ?_
  refine preserves_bind (preserves_modify fun r hr => ⟨hr.world, hr.root, hr.live, hr.excluder⟩) fun _ => ?_
  exact watched_flushEntries hp _

end Steps

/-! ## The event loop -/

/-- What the loop of `runWatching` gets to from `r₀`: it reconciles, it flushes what
has been queued, with whatever result, and while it waits for either, events are
queued and the application takes turns. -/
inductive Looping (r₀ : Run Trees) : Run Trees → Prop
  | start : Looping r₀ r₀
  | reconcile {r : Run Trees} (h : Looping r₀ r) : Looping r₀ (after reconcile r)
  | flush {r : Run Trees} (h : Looping r₀ r) : Looping r₀ (after flushPending r)
  | queue {r : Run Trees} (h : Looping r₀ r) (pending : AList fun _ : Path => Bool) :
    Looping r₀ { r with syncer := { r.syncer with pending := pending } }
  | wait {r : Run Trees} (h : Looping r₀ r) : Looping r₀ { r with world := r.world.turn.2 }

section Loop

variable {w : World Trees} {patterns : List Str} {turns : List Turn} {p : Path} {f : File}
  {r₀ r r' : Run Trees} {ex : Excluder}

theorem Looping.watched (h : Looping r₀ r) (hp : p ≠ []) (h₀ : Watched p ex r₀) : Watched p ex r := by
  induction h with
  | start => exact h₀
  | reconcile _ ih => exact (watched_reconcile hp).after ih
  | flush _ ih => exact (watched_flushPending hp).after ih
  | queue _ _ ih => exact ⟨ih.world, ih.root, ih.live, ih.excluder⟩
  | wait _ ih =>
    exact ⟨(At.survives ((Faithful.lasting _).shaped p) _ ih.world).2, ih.root, ih.live, ih.excluder⟩

/-- A new syncer with an empty destination has mistaken nothing. -/
theorem watched_start (hplan : w.plan = turns.map Turn.event) (htmp : w.tmp = none)
    (hlink : w.disk.src.link = none) (hempty : EmptyDir w.dstTree)
    (hfile : w.srcTree.get p = some (.file f)) (hp : p ≠ []) (hwrites : Writes p [] f turns) :
    Watched p (newExcluder patterns) (freshRun w patterns) := by
  refine ⟨⟨[], f, ⟨hlink, hfile, by simp, turns, hplan, hwrites⟩, htmp, ?_, ?_⟩, rfl, rfl, rfl⟩
  · intro n hn
    have hnone : w.dstTree.shape p = none := Tree.shape_eq_none.2 (hempty.get hp)
    cases hnone.symm.trans hn
  · rintro st hst
    cases hst

/-- A pass over the source leaves the right content where `Watched` held. -/
theorem Faithful.of_done {past : List Time} {t₀ t : Tree} {m₀ : StateMap} (hfresh : f.mtime ∉ past)
    (h : Faithful (m₀.lookup p) past f (t₀.shape p)) (hdone : FileDone f p t₀ m₀ t) :
    ∃ g, t.get p = some (.file g) ∧ g.content = f.content := by
  cases hdone with
  | known hm ht =>
    obtain ⟨-, g, hg, hcontent⟩ := (h.2 _ hm).resolve_left hfresh
    exact ⟨g, ht.trans (Tree.get_file_iff_shape.2 hg), hcontent⟩
  | matched hr ht =>
    obtain ⟨n, hn, -, -, -, hmtime⟩ := reports_iff.1 hr
    have hshape : t₀.shape p = some n.shape := by rw [Tree.shape, hn]; rfl
    obtain ⟨g, hg, hdated⟩ := h.1 _ hshape
    rw [hg] at hshape
    have hget := Tree.get_file_iff_shape.2 hshape
    rw [hn] at hget
    cases hget
    have hdate : g.mtime = f.mtime := hmtime
    exact ⟨g, ht.trans hn, (hdated.resolve_left (hdate ▸ hfresh)).2⟩
  | copied ht => exact ⟨f, ht, rfl⟩

/-- **No torn or stale copy survives.** Whatever the event loop has copied while the
application was writing, a `Reconcile` after the last write that returns nil leaves
the file's content in the destination. -/
theorem reconcile_settles (hplan : w.plan = turns.map Turn.event) (htmp : w.tmp = none)
    (hlink : w.disk.src.link = none) (hroot : w.srcTree.IsDir []) (hempty : EmptyDir w.dstTree)
    (hfile : w.srcTree.get p = some (.file f)) (hwrites : Writes p [] f turns)
    (hkept : ∀ d, d <+: p → (newExcluder patterns).excluded d = false)
    (hloop : Looping (freshRun w patterns) r) (hstop : r.world.plan = [])
    (hok : Netfin.reconcile.run r = .ok () r') :
    ∃ f' g, r'.src.get p = some (.file f') ∧ r'.dst.get p = some (.file g) ∧ g.content = f'.content := by
  have hp : p ≠ [] := Tree.ne_root_of_file hroot hfile
  have hw := hloop.watched hp (watched_start hplan htmp hlink hempty hfile hp hwrites)
  obtain ⟨past, f', hline, hnone, hfaithful⟩ := hw.world
  obtain ⟨seen, t₁, m₁, t, n, m, hfull, hsw, rfl⟩ :=
    (wp_reconcile ⟨hstop, hnone, hw.live⟩ hw.root).ok hok
  have hwalked : r.walked = r.src := Run.walked_eq_src hline.link
  have hseen : p ∈ seen := by
    refine (hfull.2 p).2 ⟨List.nil_prefix, hp, ⟨.file f', ?_, by simp⟩, fun d _ hd => ?_⟩
    · rw [hwalked]
      exact hline.file
    · rw [hw.excluder]
      exact hkept d hd
  have hdone := hfull.1.done hseen
  rw [hwalked, Done, hline.file] at hdone
  obtain ⟨g, hg, hcontent⟩ := hfaithful.of_done hline.fresh hdone.2
  have hkeep := (hsw.keep p fun d hd => hfull.not_doomed hw.root hseen hd).1
  exact ⟨f', g, hline.file, Tree.get_eq_of_shape hkeep hg (by simp), hcontent⟩

end Loop

/-- `copyWorld`'s source, and the same after a write to the file `a`. -/
def beforeWrite : Tree := copyWorld.srcTree
def afterWrite : Tree := .ofList [([], .dir ⟨0o755, 4096, 1⟩), ([nameA], .file ⟨0o644, 8, [3]⟩)]

/-- The write comes between two reads of the copy that the first `Reconcile` makes:
the first read has returned one byte, and the next one returns another version's. -/
def tornTurns : List Turn :=
  List.replicate 9 ⟨beforeWrite, 0, []⟩ ++ [⟨beforeWrite, 0, []⟩, ⟨afterWrite, 0, [9]⟩, ⟨afterWrite, 0, []⟩]

def tornWorld : World Trees := { copyWorld with plan := tornTurns.map Turn.event }

/-- The first `Reconcile` leaves a torn copy behind, and the second one repairs it. -/
theorem reconcile_settles_torn : ∃ r r' : Run Trees, Looping (freshRun tornWorld []) r ∧
    r.dst.get [nameA] = some (.file ⟨0o644, 7, [1, 9]⟩) ∧ reconcile.run r = .ok () r' ∧
    ∃ f' g, r'.src.get [nameA] = some (.file f') ∧ r'.dst.get [nameA] = some (.file g) ∧
      g.content = f'.content := by
  have hbefore : beforeWrite.get [nameA] = some (.file ⟨0o644, 7, [1, 2]⟩) := by decide +kernel
  have hafter : afterWrite.get [nameA] = some (.file ⟨0o644, 8, [3]⟩) := by decide +kernel
  have hwrites : Writes [nameA] [] ⟨0o644, 7, [1, 2]⟩ tornTurns := by
    iterate 10 refine ⟨_, hbefore, .inl ⟨rfl, rfl, ?_⟩⟩
    refine ⟨_, hafter, .inr ⟨by decide, ?_⟩⟩
    exact ⟨_, hafter, .inl ⟨rfl, rfl, trivial⟩⟩
  have hkept : ∀ d, d <+: [nameA] → (newExcluder []).excluded d = false := by
    intro d hd
    have hall : ∀ d ∈ List.inits [nameA], (newExcluder []).excluded d = false := by decide +kernel
    exact hall d ((List.mem_inits d _).2 hd)
  have hok := ok_of_returns reconcile (after reconcile (freshRun tornWorld [])) (by decide +kernel)
  have hstop : (after reconcile (freshRun tornWorld [])).world.plan.isEmpty = true := by decide +kernel
  refine ⟨_, _, .reconcile .start, by decide +kernel, hok, ?_⟩
  exact reconcile_settles (w := tornWorld) rfl rfl rfl (by decide +kernel) (by decide +kernel) hbefore
    hwrites hkept (.reconcile .start) (List.isEmpty_iff.1 hstop) hok

end Dockerset.Netfin

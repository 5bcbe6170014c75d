import Dockerset.Netfin.Calls
import Dockerset.Netfin.PassFacts

/-!
# The deep reconcile

The first `Reconcile` of a syncer starts without knowledge and walks the
destination too. Afterwards the destination mirrors the source, whatever it
held before, with one exception: `fileMetadataMatches` takes a directory that
reports a file's permission bits, size and modification time for the backup of
that file. If there is something in such a directory, it is removed, and the
directory no longer reports what it did.
-/

namespace Dockerset.Netfin
open Go Os Logic

/-- The source paths that are to be backed up: not a link, not excluded, and with
nothing excluded above. (Nothing lies below a link.) -/
abbrev Mirrored (S : Tree) (ex : Path → Bool) (p : Path) : Prop := Reach S ex [] p

theorem Reach.above {S : Tree} {ex : Path → Bool} {p q d : Path} (h : Reach S ex p q) (hpd : p <+: d)
    (hdq : d <+: q) (hd : d ≠ []) : Reach S ex p d := by
  by_cases he : d = q
  · exact he ▸ h
  · obtain ⟨a, ha⟩ := Tree.isDir_iff.1 (Tree.isDir_of_above h.has hdq he)
    exact ⟨hpd, hd, ⟨_, ha, by simp⟩, fun e h1 h2 => h.kept e h1 (h2.trans hdq)⟩

/-- The destination `t` holds exactly the paths that are to be backed up, and
`Stat` of each file's backup reports what it reports in the source. -/
structure Repaired (S : Tree) (ex : Path → Bool) (t : Tree) : Prop where
  only : ∀ p, p ≠ [] → t.Has p → Mirrored S ex p
  all : ∀ p, Mirrored S ex p → S.kind p = some .dir ∨ S.kind p = some .file → t.Has p
  files : ∀ p f, Mirrored S ex p → S.get p = some (.file f) → Reports t p f.info

instance (S : Tree) (ex : Path → Bool) (t : Tree) : Decidable (Repaired S ex t) :=
  decidable_of_iff ((∀ p n, t.get p = some n → p ≠ [] → Mirrored S ex p) ∧
    (∀ p n, S.get p = some n → Mirrored S ex p → n.kind = .dir ∨ n.kind = .file → t.Has p) ∧
    ∀ p n, S.get p = some n → n.kind = .file → Mirrored S ex p → Reports t p n.info) <| by
    constructor
    · rintro ⟨h1, h2, h3⟩
      refine ⟨fun p hp ht => ?_, fun p hm hk => ?_, fun p f hm hf => h3 p _ hf rfl hm⟩
      · obtain ⟨n, hn⟩ := Tree.has_iff.1 ht
        exact h1 p n hn hp
      · obtain ⟨n, hn, -⟩ := hm.node
        rw [Tree.kind, hn] at hk
        exact h2 p n hn hm (by simpa using hk)
    · rintro ⟨h1, h2, h3⟩
      refine ⟨fun p n hn hp => h1 p hp (Tree.has_of_get hn), fun p n hn hm hk => ?_, ?_⟩
      · refine h2 p hm ?_
        rw [Tree.kind, hn]
        simpa using hk
      · intro p n hn hk hm
        obtain ⟨f, rfl⟩ := Node.kind_eq_file.1 hk
        exact h3 p f hm hn

/-- A directory in the destination that passes for the backup of the file `f`. -/
def PassesFor (a : Attr) (f : File) : Prop :=
  a.perm = f.perm ∧ a.size = f.content.length ∧ a.mtime = f.mtime

instance (a : Attr) (f : File) : Decidable (PassesFor a f) := inferInstanceAs (Decidable (_ ∧ _ ∧ _))

/-- Where a file is to be backed up, no directory with something in it passes for
its backup. -/
def NoImpostor (S : Tree) (ex : Path → Bool) (t : Tree) : Prop :=
  ∀ p f a, Mirrored S ex p → S.get p = some (.file f) → t.get p = some (.dir a) → PassesFor a f →
    ∀ x, ¬ t.Has (p ++ [x])

theorem noImpostor_iff {S : Tree} {ex : Path → Bool} {t : Tree} : NoImpostor S ex t ↔
    ∀ p n, S.get p = some n → Mirrored S ex p → match n, t.get p with
      | .file f, some (.dir a) => PassesFor a f → t.names p = []
      | _, _ => True := by
  constructor
  · intro h p n hn hm
    split
    · next f a ha =>
      intro hpass
      refine List.eq_nil_iff_forall_not_mem.2 fun x hx => ?_
      exact h p f a hm hn ha hpass x (Tree.mem_names.1 hx)
    · trivial
  · intro h p f a hm hf ha hpass x hx
    have hn := h p _ hf hm
    rw [ha] at hn
    have hmem := Tree.mem_names.2 hx
    rw [hn hpass] at hmem
    cases hmem

instance (S : Tree) (ex : Path → Bool) (t : Tree) : Decidable (NoImpostor S ex t) :=
  have (p : Path) (n : Node) : Decidable (match n, t.get p with
      | .file f, some (.dir a) => PassesFor a f → t.names p = []
      | _, _ => True) := by split <;> infer_instance
  decidable_of_iff' _ noImpostor_iff

/-- A syncer as `New` makes it, in the world `w`. -/
def freshRun (w : World Trees) (patterns : List Str) : Run Trees := ⟨w, .new patterns false, []⟩

/-- Two directories that are there and no links, and nothing else going on. -/
structure Plain (w : World Trees) : Prop where
  plan : w.plan = []
  tmp : w.tmp = none
  src : w.disk.src.link = none
  dst : w.disk.dst.link = none
  root : w.srcTree.IsDir []

theorem Plain.quiet {w : World Trees} (h : Plain w) (patterns : List Str) :
    (freshRun w patterns).Quiet := ⟨h.plan, h.tmp, rfl⟩

section

variable {S : Tree} {ex : Path → Bool} {T : Set Time} {U : Perm} {t₀ t₁ t : Tree} {m₁ m : StateMap}
  {seen : List Path}

theorem Swept.seen_of_has (h : Swept T (Stray [] seen t₁) t₁ t m₁ m) {p : Path} (hp : p ≠ [])
    (ht : t.Has p) : p ∈ seen := by
  by_contra hseen
  have h1 : t₁.Has p := Tree.shape_ne_none.1 fun h1 => Tree.shape_ne_none.2 ht (h.shape_none h1)
  exact Tree.shape_ne_none.2 ht (h.gone p p ⟨List.nil_prefix, hp, hseen, h1⟩ List.prefix_rfl)

theorem not_stray_above (hall : ∀ q, q ∈ seen ↔ Mirrored S ex q) {p d : Path} (hp : p ∈ seen)
    (hd : Stray [] seen t₁ d) : ¬ d <+: p := fun hdp =>
  hd.2.2.1 ((hall d).2 (((hall p).1 hp).above List.nil_prefix hdp hd.2.1))

/-- A file that a syncer without knowledge has visited has been copied, or the
destination reported its metadata from the start. -/
theorem Pass.first_file (h : Pass S ex T U false [] t₀ ∅ seen t₁ m₁) {p : Path} {f : File} (hp : p ∈ seen)
    (hf : S.get p = some (.file f)) :
    (t₁.get p = some (.file f) ∧ ¬ t₀.IsDir p ∧ ¬ Reports t₀ p f.info) ∨
      (Reports t₀ p f.info ∧ t₁.get p = t₀.get p) := by
  have hd := h.done hp
  rw [Done, hf] at hd
  cases hd.2 with
  | known hm => simp at hm
  | matched hr ht => exact .inr ⟨hr, ht⟩
  | copied ht hn hno => exact .inl ⟨ht, hn, hno⟩

/-- A directory that a syncer without knowledge has made has the source's
permission bits, as far as the umask lets them through. -/
theorem Pass.first_dir (h : Pass S ex T U false [] t₀ ∅ seen t₁ m₁) {p : Path} {a : Attr} (hp : p ∈ seen)
    (ha : S.get p = some (.dir a)) (hnone : t₀.get p = none) :
    t₁.shape p = some (.dir ⟨a.perm &&& ~~~U, 0, 0⟩) := by
  induction h with
  | nil => cases hp
  | @snoc l q t t' m m' hpass hq _ hfresh ht ih =>
    by_cases he : p = q
    · subst he
      have hnew : p ∉ l := fun hmem => hfresh p hmem List.prefix_rfl
      have hm : m.lookup p = none := hpass.state_frame hnew (not_cleared_false _ _ _)
      have htree : t.get p = none := (hpass.tree_frame hfresh (not_cleared_false _ _ _)).trans hnone
      cases ht with
      | dirKnown _ hk => rw [hm] at hk; cases hk
      | dirMade hS h =>
        rw [hS] at ha
        cases ha
        rw [h.shape, if_pos ⟨List.prefix_rfl, Tree.shape_eq_none.2 htree⟩]
      | fileKnown hS | fileMatched hS | fileCopied hS | specialKept hS | specialRemoved hS =>
        rw [hS] at ha
        cases ha
    · have hold := ih (by simpa [he] using hp)
      have hhas : t.Has p := Tree.shape_ne_none.1 (by rw [hold]; simp)
      rw [ht.shape_frame he (fun hc => absurd hc.1 (by simp)) hhas, hold]

/-- The pass of a syncer that knows nothing, and the deep sweep after it. -/
structure DeepRun (S : Tree) (ex : Path → Bool) (T : Set Time) (U : Perm) (t₀ t₁ t : Tree) (m₁ m : StateMap)
    (seen : List Path) : Prop where
  pass : Pass S ex T U false [] t₀ ∅ seen t₁ m₁
  all : ∀ q, q ∈ seen ↔ Mirrored S ex q
  swept : Swept T (Stray [] seen t₁) t₁ t m₁ m

namespace DeepRun

variable {p : Path} {f : File}

theorem shape_eq (h : DeepRun S ex T U t₀ t₁ t m₁ m seen) (hp : p ∈ seen) : t.shape p = t₁.shape p :=
  (h.swept.keep p fun _ hd => not_stray_above h.all hp hd).1

theorem file (h : DeepRun S ex T U t₀ t₁ t m₁ m seen) (hp : Mirrored S ex p)
    (hf : S.get p = some (.file f)) :
    (t₁.get p = some (.file f) ∧ ¬ t₀.IsDir p ∧ ¬ Reports t₀ p f.info) ∨
      (Reports t₀ p f.info ∧ t₁.get p = t₀.get p) :=
  h.pass.first_file ((h.all p).2 hp) hf

theorem dir (h : DeepRun S ex T U t₀ t₁ t m₁ m seen) (hp : Mirrored S ex p) (hd : S.IsDir p) :
    t.IsDir p := by
  obtain ⟨a, ha⟩ := Tree.isDir_iff.1 hd
  have hdone := h.pass.done ((h.all p).2 hp)
  rw [Done, ha] at hdone
  rw [Tree.isDir_iff_shape, h.shape_eq ((h.all p).2 hp), ← Tree.isDir_iff_shape]
  exact hdone.2.resolve_left (by simp)

theorem only (h : DeepRun S ex T U t₀ t₁ t m₁ m seen) (hp : p ≠ []) (ht : t.Has p) : Mirrored S ex p :=
  (h.all p).1 (h.swept.seen_of_has hp ht)

theorem has_file (h : DeepRun S ex T U t₀ t₁ t m₁ m seen) (hp : Mirrored S ex p)
    (hf : S.get p = some (.file f)) : t.Has p := by
  rw [Tree.has_iff_shape, h.shape_eq ((h.all p).2 hp), ← Tree.has_iff_shape]
  rcases h.file hp hf with ⟨hg, -⟩ | ⟨hr, hg⟩
  · exact Tree.has_of_get hg
  · obtain ⟨n, hn, -⟩ := reports_iff.1 hr
    exact Tree.has_of_get (hg.trans hn)

theorem below_file (h : DeepRun S ex T U t₀ t₁ t m₁ m seen) (hf : S.get p = some (.file f)) (x : Name) :
    t₁.get (p ++ [x]) = t₀.get (p ++ [x]) := by
  refine h.pass.tree_frame (fun q hq hpq => ?_) (not_cleared_false _ _ _)
  have hk : S.kind p = some .file := Tree.kind_of_get hf
  have hreach := (h.all q).1 hq
  have he := hreach.eq_of_leaf hk (by decide) ((List.prefix_append p [x]).trans hpq)
  have hl := hpq.length_le
  rw [← he, List.length_append, List.length_singleton] at hl
  omega

theorem below_file_gone (h : DeepRun S ex T U t₀ t₁ t m₁ m seen) (hf : S.get p = some (.file f))
    (x : Name) : ¬ t.Has (p ++ [x]) := by
  intro ht
  have hm := h.only (by simp) ht
  have hk : S.kind p = some .file := Tree.kind_of_get hf
  have he := hm.eq_of_leaf hk (by decide) (List.prefix_append p [x])
  simp at he

theorem reports (h : DeepRun S ex T U t₀ t₁ t m₁ m seen) (hno : NoImpostor S ex t₀)
    (hp : Mirrored S ex p) (hf : S.get p = some (.file f)) : Reports t p f.info := by
  have hseen := (h.all p).2 hp
  rcases h.file hp hf with ⟨hg, -⟩ | ⟨hr, hg⟩
  · exact reports_file (Tree.get_eq_of_shape (h.shape_eq hseen) hg (by simp))
  · obtain ⟨n, hn, hns, hperm, hsize, hmtime⟩ := reports_iff.1 hr
    refine hr.congr (Eq.trans ?_ hg)
    by_cases hd : n.kind = .dir
    · obtain ⟨a, rfl⟩ := Node.kind_eq_dir.1 hd
      -- nothing is in the directory, so the sweep does not stamp it
      have hempty := hno p f a hp hf hn ⟨hperm, hsize, hmtime⟩
      refine h.swept.frame p fun d hd => ⟨not_stray_above h.all hseen hd, fun hpd => ?_⟩
      have hdx := List.dropLast_append_getLast hd.2.1
      rw [← hpd] at hdx
      have hhas := hd.2.2.2
      rw [← hdx, Tree.has_iff, h.below_file hf, ← Tree.has_iff] at hhas
      exact hempty _ hhas
    · exact (Tree.get_eq_of_shape (h.shape_eq hseen) (hg.trans hn) hd).trans (hg.trans hn).symm

/-- An impostor is emptied and stamped. -/
theorem not_reports (h : DeepRun S ex T U t₀ t₁ t m₁ m seen) {a : Attr} {x : Name}
    (hT : f.mtime ∉ T) (hp : Mirrored S ex p) (hf : S.get p = some (.file f))
    (ha : t₀.get p = some (.dir a)) (hx : t₀.Has (p ++ [x])) : ¬ Reports t p f.info := by
  intro hr
  have hg : t₁.get p = some (.dir a) := by
    rcases h.file hp hf with ⟨-, hn, -⟩ | ⟨-, hg⟩
    · exact absurd (Tree.isDir_iff.2 ⟨a, ha⟩) hn
    · exact hg.trans ha
  have hd : t.IsDir p := by
    rw [Tree.isDir_iff_shape, h.shape_eq ((h.all p).2 hp), ← Tree.isDir_iff_shape]
    exact Tree.isDir_iff.2 ⟨a, hg⟩
  obtain ⟨a', ha'⟩ := Tree.isDir_iff.1 hd
  obtain ⟨n, hn, -, -, -, hmtime⟩ := reports_iff.1 hr
  rw [ha'] at hn
  cases hn
  rcases h.swept.stamped p a' ha' with hs | ⟨-, hsame⟩
  · have hmt : a'.mtime = f.mtime := hmtime
    exact hT (hmt ▸ hs)
  · refine h.below_file_gone hf x ((hsame x).2 ?_)
    rw [Tree.has_iff, h.below_file hf, ← Tree.has_iff]
    exact hx

end DeepRun

end

/-! ## The first `Reconcile` -/

section

variable {w : World Trees} {patterns : List Str} {r' : Run Trees}

theorem deepRun_of_reconcile (hw : Plain w) (hok : reconcile.run (freshRun w patterns) = .ok () r') :
    ∃ t₁ m₁ n, DeepRun w.srcTree (newExcluder patterns).excluded (Set.range w.clock) w.umask w.dstTree t₁
        r'.dst m₁ r'.state r'.seen ∧
      r' = (((freshRun w patterns).move r'.dst n r'.state).seeing r'.seen).finish := by
  have hq := hw.quiet patterns
  have hend := (wp_reconcile hq rfl).ok hok
  obtain ⟨seen, t₁, m₁, t, n, m, hfull, hsw, rfl⟩ := hend
  rw [Run.walked_eq_src hw.src] at hfull
  refine ⟨t₁, m₁, n, ⟨hfull.1, hfull.2, hsw.congr fun d => ?_⟩, rfl⟩
  exact (and_iff_right hw.dst : _ ∧ Stray [] seen t₁ d ↔ _)

/-- **The deep reconcile repairs any backup without impostors**, and, when no
directory is ever stamped with a source file's modification time, only such
backups. -/
theorem reconcile_repairs (hw : Plain w) (hok : reconcile.run (freshRun w patterns) = .ok () r') :
    (NoImpostor w.srcTree (newExcluder patterns).excluded w.dstTree →
      Repaired w.srcTree (newExcluder patterns).excluded r'.dst) ∧
    ((∀ p f n, w.srcTree.get p = some (.file f) → w.clock n ≠ f.mtime) →
      Repaired w.srcTree (newExcluder patterns).excluded r'.dst →
      NoImpostor w.srcTree (newExcluder patterns).excluded w.dstTree) := by
  obtain ⟨t₁, m₁, n, hrun, -⟩ := deepRun_of_reconcile hw hok
  constructor
  · intro hno
    refine ⟨fun p hp ht => hrun.only hp ht, fun p hp hk => ?_, fun p f hp hf => hrun.reports hno hp hf⟩
    rcases hk with hd | hk
    · exact (hrun.dir hp hd).has
    · obtain ⟨node, hg, hk⟩ := Option.map_eq_some_iff.1 hk
      obtain ⟨f, rfl⟩ := Node.kind_eq_file.1 hk
      exact hrun.has_file hp hg
  · intro hclock hrep p f a hp hf ha _ x hx
    have hT : f.mtime ∉ Set.range w.clock := by
      rintro ⟨k, hk⟩
      exact hclock p f k hf hk
    exact hrun.not_reports hT hp hf ha hx (hrep.files p f hp hf)

end

/-- The names of the small trees below. -/
def nameA : Name := ⟨['a'], by decide⟩
def nameB : Name := ⟨['b'], by decide⟩
def nameX : Name := ⟨['x'], by decide⟩

/-- A file `a` in the source, and in the destination a directory `a` that reports
the same metadata, with a file `x` in it. -/
def impostorWorld : World Trees :=
  .still
    (.ofList [([], .dir ⟨0o755, 4096, 1⟩), ([nameA], .file ⟨0o755, 7, [1, 2]⟩)])
    (.ofList [([], .dir ⟨0o755, 4096, 1⟩), ([nameA], .dir ⟨0o755, 2, 7⟩),
      ([nameA, nameX], .file ⟨0o644, 3, []⟩)])
    fun n => 100 + n

/-- `Reconcile` returns nil and leaves a directory in place of the file's backup. -/
theorem reconcile_keeps_impostor : Plain impostorWorld ∧
    ∃ r', reconcile.run (freshRun impostorWorld []) = .ok () r' ∧
      ¬ Repaired impostorWorld.srcTree (newExcluder []).excluded r'.dst := by
  have hrun := ok_of_returns reconcile (freshRun impostorWorld []) (by decide +kernel)
  exact ⟨⟨rfl, rfl, rfl, rfl, by decide +kernel⟩, _, hrun, by decide +kernel⟩

/-- A file `a` in the source and an empty destination. -/
def copyWorld : World Trees :=
  .still
    (.ofList [([], .dir ⟨0o755, 4096, 1⟩), ([nameA], .file ⟨0o644, 7, [1, 2]⟩)])
    (.ofList [([], .dir ⟨0o755, 4096, 1⟩)])
    fun n => 100 + n

theorem reconcile_repairs_copy : ∃ r', reconcile.run (freshRun copyWorld []) = .ok () r' ∧
    Repaired copyWorld.srcTree (newExcluder []).excluded r'.dst := by
  have hw : Plain copyWorld := ⟨rfl, rfl, rfl, rfl, by decide +kernel⟩
  have hrun := ok_of_returns reconcile (freshRun copyWorld []) (by decide +kernel)
  exact ⟨_, hrun, (reconcile_repairs hw hrun).1 (by decide +kernel)⟩

end Dockerset.Netfin

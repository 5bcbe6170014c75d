import Dockerset.Netfin.Config
import Dockerset.Netfin.History
import Dockerset.Netfin.SqliteRepl
import Dockerset.Netfin.Steps
import Dockerset.Os.Confined

/-!
# What the file pipeline leaves alone

The syncer writes through the destination root only, and in dry-run mode not at
all. On one file system that is not enough: the destination may lie above, at or
below what the syncer is to protect. Nothing in the validation rules that out.

The destination is harmless when no path along it leads into the source or the
replicas of the databases, whichever of the symbolic links on the way are followed.
-/

namespace Dockerset.Netfin
open Go Os Logic

/-! ## Calls write to the destination only -/

section Guarded

variable {D : Type} [Disk D] {I : D → Prop} {dry : Bool}

/-- `I` holds around the syncer, whose mode is `dry`. -/
def Guarded (I : D → Prop) (dry : Bool) (r : Run D) : Prop := Held I r.world ∧ r.syncer.dryRun = dry

/-- Calls one after the other, whatever each of them returns. -/
def runCalls : List Call → SyncM D Unit
  | [] => pure ()
  | c :: cs => do
    let _ ← tryCall c.exec
    runCalls cs

theorem dryRun_remember (s : Syncer) (p : Path) (st : PathState) :
    (s.remember p st).dryRun = s.dryRun := by
  unfold Syncer.remember
  split <;> rfl

theorem dryRun_forget (s : Syncer) (p : Path) : (s.forget p).dryRun = s.dryRun := by
  unfold Syncer.forget
  split <;> rfl

theorem dryRun_forgetTree (s : Syncer) (p : Path) : (s.forgetTree p).dryRun = s.dryRun := by
  unfold Syncer.forgetTree
  split <;> rfl

section Operations

variable (hI : dry = false → DstKeeps I)
include hI

theorem mirrorKeeps_guarded : MirrorKeeps (fun _ => True) I fun s => s.dryRun = dry where
  below _ _ _ := trivial
  writes _ _ _ hs hdry := (hI (hs.symm.trans hdry)).writes rfl
  remember s p st _ hs := (dryRun_remember s p st).trans hs

theorem dropKeeps_guarded : DropKeeps (fun _ => True) I fun s => s.dryRun = dry where
  removals _ _ _ hs hdry := (hI (hs.symm.trans hdry)).removals rfl
  forget s p _ hs := (dryRun_forget s p).trans hs
  forgetTree s p _ hs := (dryRun_forgetTree s p).trans hs

theorem guarded_exec (c : Call) : Preserves (Guarded I dry) (c.exec : SyncM D Unit) := by
  have hm := mirrorKeeps_guarded hI
  have hd := dropKeeps_guarded hI
  have hdrops := hd.drops (fun _ h => h) fun _ _ _ _ => trivial
  cases c with
  | reconcile => exact heldWith_reconcile (fun _ h => h) hm hd (fun _ => trivial) fun _ hs => hs
  | rel s => exact (hm.mirrors fun _ h => h).syncRel hdrops fun _ => trivial
  | tree s => exact (hm.mirrors fun _ h => h).syncTree hdrops (hd.removeSpecial fun _ h => h) fun _ => trivial

theorem guarded_runCalls (cs : List Call) : Preserves (Guarded I dry) (runCalls cs : SyncM D Unit) := by
  induction cs with
  | nil => exact preserves_pure _
  | cons c cs ih => exact preserves_bind (preserves_tryCall (guarded_exec hI c)) fun _ => ih

end Operations

end Guarded

/-! ## One file system -/

/-- A place that a path along `B` may lead to, or one above it. -/
def Reached (fs : Fs) (B q : Path) : Prop :=
  ∃ p q', Along B p ∧ fs.Leads [] (p.map Subtype.val) q' ∧ q <+: q'

/-- A place that `B` or a path below it may lead to. -/
def ReachedBelow (fs : Fs) (B q : Path) : Prop :=
  ∃ p, B <+: p ∧ fs.Leads [] (p.map Subtype.val) q

/-- The file systems differ in places that `B` reaches in `fs₀`, and no link is new. -/
structure KeptApart (fs₀ : Fs) (B : Path) (fs fs' : Fs) : Prop where
  text : fs'.text = fs.text
  within : Within (Reached fs₀ B) fs.tree fs'.tree

section Reached

variable {fs₀ fs : Fs} {B p q r : Path} {follow : Bool}

theorem Reached.dropLast (h : Reached fs₀ B q) : Reached fs₀ B q.dropLast := by
  obtain ⟨p, q', hp, hlead, hq⟩ := h
  exact ⟨p, q', hp, hlead, (List.dropLast_prefix q).trans hq⟩

/-- What is below a place that is reached below `B` is reached as well. -/
theorem ReachedBelow.reached (h : ReachedBelow fs₀ B p) (hq : p <+: q) : Reached fs₀ B q := by
  obtain ⟨r, hr, hlead⟩ := h
  obtain ⟨names, rfl⟩ := hq
  have hmore := hlead.append names
  rw [← List.map_append] at hmore
  exact ⟨r ++ names, p ++ names, .inl (hr.trans (List.prefix_append r names)), hmore, List.prefix_rfl⟩

theorem changes_keptApart : Changes (Reached fs₀ B) (ReachedBelow fs₀ B) (KeptApart fs₀ B) where
  refl _ := ⟨rfl, .refl _ _⟩
  trans h h' := ⟨h'.text.trans h.text, h.within.trans h'.within⟩
  stamp _ now hp := ⟨rfl, .stamp hp _ now⟩
  mkdir _ perm now hp := ⟨rfl, .mkdir hp hp.dropLast _ perm now⟩
  install _ hp h := ⟨rfl, .install (hp.reached List.prefix_rfl) (hp.reached List.prefix_rfl).dropLast h⟩

theorem removals_keptApart : Removals (ReachedBelow fs₀ B) (KeptApart fs₀ B) where
  refl _ := ⟨rfl, .refl _ _⟩
  removed _ now hp := ⟨rfl, .removed (fun _ => hp.reached) (hp.reached List.prefix_rfl).dropLast _ now⟩

theorem KeptApart.leads (h : KeptApart fs₀ B fs₀ fs) (hf : fs.find follow r = .ok q) :
    fs₀.Leads [] (r.map Subtype.val) q :=
  .of_find h.text h.within.link hf

theorem dstKeeps_keptApart : DstKeeps (Confined B (KeptApart fs₀ B) fs₀) := by
  have hbelow : ∀ {fs q r}, KeptApart fs₀ B fs₀ fs → B <+: r → fs.find false r = .ok q →
      ReachedBelow fs₀ B q := fun h hr hf => ⟨_, hr, h.leads hf⟩
  have hwrites : ∀ p, WritesKeep (Confined B (KeptApart fs₀ B) fs₀) ⟨.dst, p⟩ := fun p =>
    writesKeep_confined hbelow changes_keptApart
      (fun h hr hf => ⟨_, _, hr, h.leads hf, List.prefix_rfl⟩) (List.prefix_append B p)
  have hremovals : ∀ p, RemovalsKeep (Confined B (KeptApart fs₀ B) fs₀) ⟨.dst, p⟩ := fun p =>
    removalsKeep_confined hbelow changes_keptApart.trans removals_keptApart (List.prefix_append B p)
  constructor
  · rintro d d' ⟨side, p⟩ perm now rfl h hm
    exact (hwrites p).mkdirAll h hm
  · rintro d d' ⟨side, p⟩ perm now rfl h hm
    exact (hwrites p).mkdirParent h hm
  · rintro d d' ⟨side, p⟩ now rfl h hm
    exact (hwrites p).touchParent h hm
  · rintro d d' ⟨side, p⟩ f now rfl h hm
    exact (hwrites p).install h hm
  · rintro d d' ⟨side, p⟩ now rfl h hm
    exact (hremovals p).remove h hm
  · rintro d d' ⟨side, p⟩ now rfl h hm
    exact (hremovals p).removeAll h hm

end Reached

/-! ## What is protected -/

/-- `CleanRoot(root)`. -/
def cleanRoot (getwd : Getwd) (root : Str) : Except Str Str :=
  if root = [] then .error "root path required" else filepathAbs getwd root

/-- A syncer before its first call, in the world `w`. -/
def mountedRun (cfg : Config) (src dst : Str) (w : World Mount) : Run Mount where
  world := { w with disk := { w.disk with src := absComps src, dst := absComps dst } }
  syncer := .new cfg.netfin.excludePatterns cfg.netfin.dryRun
  seen := []

/-- `New` with the options of `runSidecar`. -/
def newSyncer (getwd : Getwd) (cfg : Config) (w : World Mount) : Except Str (Run Mount) := do
  let src ← cleanRoot getwd cfg.netfin.configDir
  let dst ← cleanRoot getwd cfg.netfin.fileBackupDir
  if cfg.netfin.debounce ≤ 0 then .error "debounce must be positive"
  else if cfg.netfin.reconcileInterval ≤ 0 then .error "reconcile interval must be positive"
  else return mountedRun cfg src dst w

/-- The source, and the replicas of the databases. -/
def protectedRoots (cfg : Config) : List Path :=
  absComps cfg.netfin.configDir :: cfg.dbs.map fun db => absComps db.replica.path

/-- `q` is a place at or below `S`, or below the directory that `S` leads to. -/
def UnderRoot (fs : Fs) (S q : Path) : Prop :=
  S <+: q ∨ ∃ R, fs.find true S = .ok R ∧ R <+: q

/-- No path at the destination, above it or below it may lead to a place under a
protected directory. Links on the way are followed, or passed as if they were gone. -/
def ApartFrom (fs : Fs) (roots : List Path) (B : Path) : Prop :=
  ∀ S ∈ roots, ∀ p q, Along B p → fs.Leads [] (p.map Subtype.val) q → ¬ UnderRoot fs S q

theorem ApartFrom.not_reached {fs : Fs} {roots : List Path} {B S q : Path}
    (h : ApartFrom fs roots B) (hS : S ∈ roots) (hq : UnderRoot fs S q) : ¬ Reached fs B q := by
  rintro ⟨p, q', hp, hlead, hqq⟩
  refine h S hS p q' hp hlead ?_
  rcases hq with hq | ⟨R, hR, hq⟩
  · exact .inl (hq.trans hqq)
  · exact .inr ⟨R, hR, hq.trans hqq⟩

/-- Without links, the names of the paths decide. -/
theorem ApartFrom.of_linkless {fs : Fs} {roots : List Path} {B : Path} (hlinks : Linkless B fs.tree)
    (hfind : ∀ S ∈ roots, fs.find true S = .ok S) (hnamed : ∀ S ∈ roots, ¬ Along B S) :
    ApartFrom fs roots B := by
  intro S hS p q hp hlead hq
  have hpq : q = [] ++ p := Fs.Leads.eq (fun r hr => hlinks r (hp.of_prefix hr)) hlead
  rw [hpq, List.nil_append] at hq
  rcases hq with hq | ⟨R, hR, hq⟩
  · exact hnamed S hS (hp.of_prefix hq)
  · cases (hfind S hS).symm.trans hR
    exact hnamed S hS (hp.of_prefix hq)

theorem cleanRoot_absStr (getwd : Getwd) (p : Path) :
    cleanRoot getwd (absStr p) = .ok (absStr p) := by
  have habs : isAbs (absStr p) = true := by simp [isAbs, absStr, Cleaned.str]
  unfold cleanRoot filepathAbs
  rw [if_neg (absStr_ne_nil p), if_pos habs, clean_absStr]
  rfl

/-- A validated configuration has a syncer, and its roots are those of the configuration. -/
theorem newSyncer_of_accepted {getwd : Getwd} {lower : Char → Char} {c cfg : Config}
    (hcfg : applyDefaultsAndValidate getwd lower c = .ok cfg) (w : World Mount) :
    newSyncer getwd cfg w =
      .ok (mountedRun cfg cfg.netfin.configDir cfg.netfin.fileBackupDir w) := by
  have hnormal := applyDefaultsAndValidate_normal hcfg
  obtain ⟨hdebounce, hinterval⟩ := applyDefaultsAndValidate_durations hcfg
  obtain ⟨src, hsrc⟩ := hnormal.configDir
  obtain ⟨dst, hdst⟩ := hnormal.fileBackupDir
  unfold newSyncer
  rw [hsrc, hdst, cleanRoot_absStr, cleanRoot_absStr]
  simp [bind, Except.bind, pure, Except.pure, Int.not_le.2 hdebounce, Int.not_le.2 hinterval]

/-- While no one else writes, calls of the syncer leave the source and the
replicas as they are, if the syncer is in dry-run mode or its destination is
apart from them. -/
theorem calls_harmless {getwd : Getwd} {lower : Char → Char} {c cfg : Config}
    (hcfg : applyDefaultsAndValidate getwd lower c = .ok cfg) {w : World Mount}
    (hothers : ∀ ev ∈ w.plan, ∀ m, ev.edit m = m)
    (hapart : cfg.netfin.dryRun = true ∨
      ApartFrom w.disk.fs (protectedRoots cfg) (absComps cfg.netfin.fileBackupDir)) :
    ∃ r, newSyncer getwd cfg w = .ok r ∧ ∀ (calls : List Call), ∀ S ∈ protectedRoots cfg, ∀ q,
      UnderRoot w.disk.fs S q →
      (after (runCalls calls) r).world.disk.fs.tree.get q = w.disk.fs.tree.get q := by
  refine ⟨_, newSyncer_of_accepted hcfg w, fun calls S hS q hq => ?_⟩
  generalize hr : mountedRun cfg cfg.netfin.configDir cfg.netfin.fileBackupDir w = r
  have hplan : r.world.plan = w.plan := by rw [← hr]; rfl
  have hfs : r.world.disk.fs = w.disk.fs := by rw [← hr]; rfl
  have hdst : r.world.disk.dst = absComps cfg.netfin.fileBackupDir := by rw [← hr]; rfl
  have hmode : r.syncer.dryRun = cfg.netfin.dryRun := by rw [← hr]; rfl
  rcases hapart with hdry | hapart
  · -- nothing is written at all: the file system itself is kept
    have hstart : Guarded (fun m : Mount => m.fs = w.disk.fs) true r :=
      ⟨⟨hfs, fun ev hev m hm => by rwa [hothers ev (hplan ▸ hev) m]⟩, hmode.trans hdry⟩
    have hend := (guarded_runCalls (by simp) calls).after hstart
    rw [hend.1.1]
  · have hstart : Guarded (Confined (absComps cfg.netfin.fileBackupDir)
        (KeptApart w.disk.fs (absComps cfg.netfin.fileBackupDir)) w.disk.fs) cfg.netfin.dryRun r :=
      ⟨⟨⟨hdst, hfs ▸ changes_keptApart.refl _⟩,
        fun ev hev m hm => by rwa [hothers ev (hplan ▸ hev) m]⟩, hmode⟩
    have hend := (guarded_runCalls (fun _ => dstKeeps_keptApart) calls).after hstart
    exact hend.1.1.rel.within.frame q (hapart.not_reached hS hq)

/-- The directories of the default configuration, with a file in each of them. -/
def defaultFs : Fs where
  tree := .ofList [([], .dir ⟨0o755, 4096, 1⟩), (absComps "/config", .dir ⟨0o755, 4096, 1⟩),
    (absComps "/config/system.xml", .file ⟨0o644, 5, [1, 2]⟩),
    (absComps "/backup", .dir ⟨0o755, 4096, 1⟩),
    (absComps "/backup/sqlite", .dir ⟨0o755, 4096, 1⟩),
    (absComps "/backup/sqlite/generation", .file ⟨0o644, 7, [3]⟩)]
  text _ := []

def defaultMount : World Mount where
  disk := ⟨defaultFs, [], []⟩
  tmp := none
  umask := 0o022
  pathMax := 8
  clock n := 100 + n
  tick := 0
  plan := []

/-- The default directories are apart from each other. -/
theorem calls_harmless_default : ∃ (cfg : Config) (r : Run Mount),
    applyDefaultsAndValidate rootWd id .default = .ok cfg ∧ cfg.netfin.dryRun = false ∧
    newSyncer rootWd cfg defaultMount = .ok r ∧ ∀ calls : List Call,
      ∀ S ∈ protectedRoots cfg, ∀ q, UnderRoot defaultFs S q →
        (after (runCalls calls) r).world.disk.fs.tree.get q = defaultFs.tree.get q := by
  obtain ⟨cfg, hcfg, hP⟩ := of_acceptedWith rootWd id .default
    (fun cfg => decide (cfg.netfin.dryRun = false ∧
      absComps cfg.netfin.fileBackupDir = absComps "/backup/files" ∧
      protectedRoots cfg = [absComps "/config", absComps "/backup/sqlite"])) (by decide +kernel)
  obtain ⟨hdry, hdst, hroots⟩ := of_decide_eq_true hP
  have hfound : ∀ S ∈ [absComps "/config", absComps "/backup/sqlite"],
      defaultFs.find true S = .ok S ∧ ¬ Along (absComps "/backup/files") S := by decide +kernel
  have hapart : ApartFrom defaultFs (protectedRoots cfg) (absComps cfg.netfin.fileBackupDir) := by
    rw [hdst, hroots]
    exact .of_linkless (linkless_of_keys (by decide +kernel)) (fun S hS => (hfound S hS).1)
      fun S hS => (hfound S hS).2
  obtain ⟨r, hr, hkeep⟩ := calls_harmless (w := defaultMount) hcfg (fun _ h => by cases h)
    (.inr hapart)
  exact ⟨cfg, r, hcfg, hdry, hr, hkeep⟩

/-- The default configuration with the destination one level higher. -/
def backupAbove : Config :=
  { Config.default with netfin := { Config.default.netfin with fileBackupDir := "/backup" } }

/-- The first `Reconcile` removes the replica that lies below the destination. -/
theorem replica_removed : ∃ (cfg : Config) (r : Run Mount),
    applyDefaultsAndValidate rootWd id backupAbove = .ok cfg ∧
    newSyncer rootWd cfg defaultMount = .ok r ∧
    absComps "/backup/sqlite" ∈ protectedRoots cfg ∧
    defaultFs.tree.get (absComps "/backup/sqlite/generation") = some (.file ⟨0o644, 7, [3]⟩) ∧
    returns Call.reconcile.exec r = true ∧
    (after (runCalls [.reconcile]) r).world.disk.fs.tree.get
      (absComps "/backup/sqlite/generation") = none := by
  obtain ⟨cfg, hcfg, hP⟩ := of_acceptedWith rootWd id backupAbove
    (fun cfg =>
      let r := mountedRun cfg cfg.netfin.configDir cfg.netfin.fileBackupDir defaultMount
      decide (absComps "/backup/sqlite" ∈ protectedRoots cfg ∧
        returns Call.reconcile.exec r = true ∧
        (after (runCalls [.reconcile]) r).world.disk.fs.tree.get
          (absComps "/backup/sqlite/generation") = none)) (by decide +kernel)
  obtain ⟨hroot, hreturns, hgone⟩ := of_decide_eq_true hP
  exact ⟨cfg, _, hcfg, newSyncer_of_accepted hcfg defaultMount, hroot, by decide +kernel, hreturns,
    hgone⟩

end Dockerset.Netfin

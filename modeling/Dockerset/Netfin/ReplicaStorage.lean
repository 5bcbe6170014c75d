import Dockerset.Netfin.SqliteRepl
import Dockerset.Os.Trees

/-!
# Where databases are replicated to

The replica directory and the meta path of a database, as lists of components:
`replicaSlot` and `metaSlot`. Within one entry the replica slots are always distinct;
the meta slots are not, if the entry has a `meta-path`, or if it has no `meta-dir` and
two of its databases have the same file name. Nothing keeps the slots of two different
entries apart: they are shared if the entries have the same replica path, and in
general where the directories of one entry overlap those of the other (`Overlap`).
-/

namespace Dockerset.Netfin
open Go Os Logic

/-- The path of a database below the directory of its entry. -/
def DBConfig.below (db : DBConfig) (p : Path) : Path :=
  if db.dir = [] then [] else p.drop (absComps db.dir).length

/-- The components of a name or relative path with the library's suffix. -/
def litestreamComps (suffix : Name) (s : Str) : Path := (clean (s ++ suffix.val)).comps

def DBConfig.replicaSlot (db : DBConfig) (p : Path) : Path :=
  absComps db.replica.path ++ db.below p

/-- Where the metadata of an entry goes: the meta path itself, or a directory. -/
def DBConfig.metaHome (db : DBConfig) : Path :=
  if db.metaPath ≠ [] then absComps db.metaPath
  else if db.metaDir ≠ [] then absComps db.metaDir
  else absComps db.replica.path ++ [metadataDir]

/-- The text to which the suffix is added. -/
def DBConfig.metaText (db : DBConfig) (p : Path) : Str :=
  if db.metaDir ≠ [] ∧ db.dir ≠ [] then (db.below p).str else filepathBase (absStr p)

/-- What a database has there: nothing of its own below a meta path. -/
def DBConfig.metaName (suffix : Name) (db : DBConfig) (p : Path) : Path :=
  if db.metaPath ≠ [] then [] else litestreamComps suffix (db.metaText p)

def DBConfig.metaSlot (suffix : Name) (db : DBConfig) (p : Path) : Path :=
  db.metaHome ++ db.metaName suffix p

/-! ## Names with the library's suffix -/

/-- A relative path, or the base name of the root: what the suffix is added to. -/
def Storable (s : Str) : Prop := (∃ r : Path, s = r.str) ∨ s = ['/']

theorem storable_base (p : Path) : Storable (filepathBase (absStr p)) := by
  induction p using List.reverseRecOn with
  | nil => exact .inr filepathBase_absStr_nil
  | append_singleton p x _ =>
    refine .inl ⟨[x], ?_⟩
    rw [filepathBase_absStr, Path.str_singleton]

section Suffix

variable {suffix : Name}

theorem litestreamComps_str (r : Path) :
    (litestreamComps suffix r.str).str = r.str ++ suffix.val := by
  by_cases hr : r = []
  · have hdot : ValidName ('.' :: suffix.val) := by
      obtain ⟨hne, hslash, hone, -⟩ := suffix.property
      refine ⟨by simp, by simpa using hslash, by simpa using hne, ?_⟩
      rintro h
      exact hone (List.cons.inj h).2
    have hclean := clean_path [⟨'.' :: suffix.val, hdot⟩]
    rw [Path.str_singleton] at hclean
    subst hr
    change (clean ('.' :: suffix.val)).comps.str = _
    rw [hclean, Path.str_singleton]
    rfl
  · exact clean_str_append hr suffix.property.2.1

theorem litestreamComps_root : (litestreamComps suffix ['/']).str = suffix.val := by
  have hclean := clean_absStr [suffix]
  have hstr : absStr [suffix] = '/' :: suffix.val := by simp [absStr_of_ne_nil, slashed]
  rw [hstr] at hclean
  change (clean ('/' :: suffix.val)).comps.str = _
  rw [hclean, Path.str_singleton]

theorem Storable.clean_append {s : Str} (h : Storable s) (p : Path) :
    clean (absStr p ++ '/' :: (s ++ suffix.val)) = ⟨true, 0, p ++ litestreamComps suffix s⟩ := by
  rcases h with ⟨r, rfl⟩ | rfl
  · rw [← litestreamComps_str, clean_append_str]
  · have h := clean_append_slash p (litestreamComps suffix ['/'])
    rw [litestreamComps_root] at h
    exact h

theorem Storable.litestreamComps_inj {s s' : Str} (h : Storable s) (h' : Storable s')
    (heq : litestreamComps suffix s = litestreamComps suffix s') : s = s' := by
  have hne : ∀ r : Path, litestreamComps suffix r.str ≠ litestreamComps suffix ['/'] := by
    intro r hr
    have hstr := congrArg Path.str hr
    rw [litestreamComps_str, litestreamComps_root, List.append_left_eq_self] at hstr
    exact Path.str_ne_nil r hstr
  rcases h with ⟨r, rfl⟩ | rfl <;> rcases h' with ⟨r', rfl⟩ | rfl
  · have hstr := congrArg Path.str heq
    rw [litestreamComps_str, litestreamComps_str] at hstr
    exact List.append_cancel_right hstr
  · exact absurd heq (hne r)
  · exact absurd heq.symm (hne r')
  · rfl

theorem length_litestreamComps_base (p : Path) :
    (litestreamComps suffix (filepathBase (absStr p))).length = 1 := by
  induction p using List.reverseRecOn with
  | nil =>
    rw [filepathBase_absStr_nil, Path.str_inj (litestreamComps_root.trans (Path.str_singleton suffix).symm)]
    rfl
  | append_singleton p x _ =>
    have hlast : (litestreamComps suffix (Path.str [x])).str =
        Path.str [⟨x.val ++ suffix.val, validName_append x suffix.property.2.1⟩] := by
      rw [litestreamComps_str, Path.str_singleton, Path.str_singleton]
    rw [filepathBase_absStr, ← Path.str_singleton, Path.str_inj hlast]
    rfl

theorem DBConfig.storable_metaText (db : DBConfig) (p : Path) : Storable (db.metaText p) := by
  unfold metaText
  split
  · exact .inl ⟨_, rfl⟩
  · exact storable_base p

theorem DBConfig.metaName_inj {db db' : DBConfig} {p q : Path} (hpath : db.metaPath = [])
    (hpath' : db'.metaPath = []) :
    db.metaName suffix p = db'.metaName suffix q ↔ db.metaText p = db'.metaText q := by
  rw [metaName, metaName, if_neg (not_not.2 hpath), if_neg (not_not.2 hpath')]
  exact ⟨(db.storable_metaText p).litestreamComps_inj (db'.storable_metaText q), fun h => by rw [h]⟩

end Suffix

/-! ## The slots of a database -/

section Slots

variable {suffix : Name} {db : DBConfig} {p : Path}

theorem DBConfig.Normal.replica_eq (h : db.Normal) :
    db.replica.path = absStr (absComps db.replica.path) := by
  obtain ⟨p, hp⟩ := h.replica
  rw [hp, absComps_absStr]

theorem Found.eq_append (h : Found db p) (hdir : db.dir ≠ []) :
    p = absComps db.dir ++ db.below p := by
  obtain ⟨r, rfl⟩ := h.below hdir
  simp [DBConfig.below, hdir]

theorem Found.rel_eq (h : Found db p) (hdir : db.dir ≠ []) :
    filepathRel (absComps db.dir) p = (db.below p).str := by
  have hp := h.eq_append hdir
  conv_lhs => rw [hp]
  exact filepathRel_append _ _

theorem replicaPathFor_eq (hn : db.Normal) (h : Found db p) :
    replicaPathFor db p = absStr (db.replicaSlot p) := by
  unfold replicaPathFor DBConfig.replicaSlot
  by_cases hdir : db.dir = []
  · rw [if_neg (by simp [hdir]), DBConfig.below, if_pos hdir, List.append_nil]
    exact hn.replica_eq
  · rw [if_pos hdir, h.rel_eq hdir, hn.replica_eq, filepathJoin_str, absComps_absStr]

theorem metaPathFor_eq (hn : db.Normal) (h : Found db p) :
    metaPathFor suffix db p = absStr (db.metaSlot suffix p) := by
  unfold metaPathFor DBConfig.metaSlot DBConfig.metaHome DBConfig.metaName DBConfig.metaText
  by_cases hpath : db.metaPath = []
  swap
  · rw [if_pos hpath, if_pos hpath, if_pos hpath, List.append_nil]
    exact hn.metaPath.eq hpath
  simp only [hpath, ne_eq, not_true_eq_false, if_false]
  by_cases hdir : db.metaDir = []
  · have hjoin : ∀ (R : Path) (s : Str), filepathJoin [absStr R, metadataDir.val, s] =
        (clean (absStr (R ++ [metadataDir]) ++ '/' :: s)).str := by
      intro R s
      rw [← clean_append_name]
      simp [filepathJoin, absStr_ne_nil]
    simp only [hdir, not_true_eq_false, if_false, false_and]
    rw [hn.replica_eq, hjoin, (storable_base p).clean_append, absComps_absStr]
    rfl
  · simp only [hdir, not_false_eq_true, if_true, true_and]
    rw [hn.metaDir.eq hdir, absComps_absStr, filepathJoin_absStr]
    split
    · next hd =>
      rw [h.rel_eq hd, Storable.clean_append (.inl ⟨_, rfl⟩)]
      rfl
    · rw [(storable_base p).clean_append]
      rfl

theorem Found.replicaSlot_ne {q : Path} (hp : Found db p) (hq : Found db q) (hne : p ≠ q) :
    db.dir ≠ [] ∧ db.replicaSlot p ≠ db.replicaSlot q := by
  have hdir : db.dir ≠ [] := fun h => hne ((hp.named h).trans (hq.named h).symm)
  refine ⟨hdir, fun h => hne ?_⟩
  have hbelow : db.below p = db.below q := List.append_cancel_left h
  rw [hp.eq_append hdir, hq.eq_append hdir, hbelow]

/-- The meta slots of two databases of one entry. -/
theorem Found.metaSlot_ne_iff {q : Path} (hp : Found db p) (hq : Found db q) (hne : p ≠ q) :
    db.metaSlot suffix p ≠ db.metaSlot suffix q ↔
      db.metaPath = [] ∧ (db.metaDir ≠ [] ∨ filepathBase (absStr p) ≠ filepathBase (absStr q)) := by
  obtain ⟨hdir, hslot⟩ := hp.replicaSlot_ne hq hne
  rw [DBConfig.metaSlot, DBConfig.metaSlot, ne_eq, List.append_cancel_left_eq]
  by_cases hpath : db.metaPath = []
  swap
  · simp [DBConfig.metaName, hpath]
  rw [DBConfig.metaName_inj hpath hpath]
  unfold DBConfig.metaText
  by_cases hmd : db.metaDir = []
  · simp [hpath, hmd]
  · simp only [hpath, hmd, hdir, ne_eq, not_false_eq_true, and_self, if_true, true_or, iff_true]
    intro hstr
    exact hslot (by rw [DBConfig.replicaSlot, DBConfig.replicaSlot, Path.str_inj hstr])

end Slots

/-! ## The storage of two databases -/

section Storage

variable (D : Type) [Disk D]

/-- Some run of `Replicator.Run` replicates `p` for the entry `db`. -/
def Replicates (cfg : Config) (db : DBConfig) (p : Path) : Prop :=
  ∃ (rounds : Nat) (w w' : World D) (known : List Path),
    (runReplicator cfg.netfin.dryRun db rounds).run w = .ok known w' ∧ p ∈ known

/-- Some run of `runOnce` hands over the replica directory and the meta path
`given` for `p`. -/
def Gives (suffix : Name) (db : DBConfig) (p : Path) (given : Str × Str) : Prop :=
  ∃ w w' : World D, (runOnce suffix db p).run w = .ok given w'

variable {D}

theorem Replicates.found {cfg : Config} {db : DBConfig} {p : Path} (h : Replicates D cfg db p) :
    Found db p := by
  obtain ⟨rounds, w, w', known, hrun, hp⟩ := h
  unfold runReplicator at hrun
  split at hrun
  · cases hrun
    cases hp
  · exact (wp_runDBConfig rounds [] (fun q hq => absurd hq List.not_mem_nil) w).ok hrun p hp

theorem Gives.eq {suffix : Name} {db : DBConfig} {p : Path} {given : Str × Str}
    (h : Gives D suffix db p given) : given = (replicaPathFor db p, metaPathFor suffix db p) := by
  obtain ⟨w, w', hrun⟩ := h
  have hwp : WP (runOnce suffix db p) (fun r _ => r = (replicaPathFor db p, metaPathFor suffix db p))
      (fun _ _ => True) w := by
    rw [runOnce, WP.bind_iff]
    refine WP.trivial.mono (fun info w₁ _ => ?_) fun _ _ _ => trivial
    split_ifs
    · trivial
    · rw [WP.bind_iff]
      exact WP.trivial.mono (fun _ _ _ => rfl) fun _ _ _ => trivial
  exact hwp.ok hrun

/-- One of the directories `R` and `S` is the other one or lies in it, at just the
place by which `u` and `v` differ: `u` below `R` is `v` below `S`. -/
def Overlap (R S u v : Path) : Prop := (∃ s, S = R ++ s ∧ u = s ++ v) ∨ ∃ s, R = S ++ s ∧ v = s ++ u

/-- What keeps the replicas of `p` and `q`, of two entries, apart: the replica paths, if
both entries name their database. -/
def ReplicasApart (d e : DBConfig) (p q : Path) : Prop :=
  if d.dir = [] ∧ e.dir = [] then d.replica.path ≠ e.replica.path
  else ¬ Overlap (absComps d.replica.path) (absComps e.replica.path) (d.below p) (e.below q)

/-- What keeps their metadata apart: the meta paths, if both entries have one, and the
replica paths or the file names, if both have neither meta path nor meta directory. -/
def MetaApart (suffix : Name) (d e : DBConfig) (p q : Path) : Prop :=
  if d.metaPath ≠ [] ∧ e.metaPath ≠ [] then d.metaPath ≠ e.metaPath
  else if (d.metaPath = [] ∧ d.metaDir = []) ∧ e.metaPath = [] ∧ e.metaDir = [] then
    d.replica.path ≠ e.replica.path ∨ filepathBase (absStr p) ≠ filepathBase (absStr q)
  else ¬ Overlap d.metaHome e.metaHome (d.metaName suffix p) (e.metaName suffix q)

/-- What keeps the databases `p` of the `i`-th and `q` of the `j`-th entry apart. -/
def StorageApart (suffix : Name) (i j : Nat) (d e : DBConfig) (p q : Path) : Prop :=
  if i = j then
    d.metaPath = [] ∧ (d.metaDir ≠ [] ∨ filepathBase (absStr p) ≠ filepathBase (absStr q))
  else ReplicasApart d e p q ∧ MetaApart suffix d e p q

section Apart

variable {suffix : Name} {d e : DBConfig} {p q : Path}

theorem absStr_ne_iff {r s : Path} : absStr r ≠ absStr s ↔ r ≠ s :=
  not_congr ⟨absStr_inj, congrArg absStr⟩

theorem replicasApart_iff (hd : d.Normal) (he : e.Normal) :
    d.replicaSlot p ≠ e.replicaSlot q ↔ ReplicasApart d e p q := by
  unfold ReplicasApart DBConfig.replicaSlot
  split
  · next hdir =>
    rw [DBConfig.below, DBConfig.below, if_pos hdir.1, if_pos hdir.2, List.append_nil, List.append_nil,
      ← absStr_ne_iff, ← hd.replica_eq, ← he.replica_eq]
  · exact not_congr List.append_eq_append_iff

/-- Both metadata directories lie below the replicas, under the file names. -/
theorem metaSlot_ne_iff_default (hd : d.Normal) (he : e.Normal) (hdd : d.metaPath = [] ∧ d.metaDir = [])
    (hee : e.metaPath = [] ∧ e.metaDir = []) : d.metaSlot suffix p ≠ e.metaSlot suffix q ↔
      d.replica.path ≠ e.replica.path ∨ filepathBase (absStr p) ≠ filepathBase (absStr q) := by
  have hname : d.metaName suffix p = e.metaName suffix q ↔ d.metaText p = e.metaText q :=
    DBConfig.metaName_inj hdd.1 hee.1
  simp only [DBConfig.metaText, hdd.2, hee.2, ne_eq, not_true_eq_false, false_and, if_false] at hname
  have hhome : d.metaHome = e.metaHome ↔ d.replica.path = e.replica.path := by
    rw [DBConfig.metaHome, DBConfig.metaHome, if_neg (not_not.2 hdd.1), if_neg (not_not.2 hdd.2),
      if_neg (not_not.2 hee.1), if_neg (not_not.2 hee.2), List.append_cancel_right_eq, hd.replica_eq,
      he.replica_eq, absComps_absStr, absComps_absStr]
    exact ⟨congrArg absStr, absStr_inj⟩
  have hlen : ∀ (db : DBConfig) (p : Path), db.metaPath = [] ∧ db.metaDir = [] →
      (db.metaName suffix p).length = 1 := by
    intro db p hdb
    rw [DBConfig.metaName, if_neg (not_not.2 hdb.1), DBConfig.metaText, if_neg fun h => h.1 hdb.2]
    exact length_litestreamComps_base p
  rw [ne_eq, ne_eq, ne_eq, ← hhome, ← hname, ← not_and_or, DBConfig.metaSlot, DBConfig.metaSlot]
  refine not_congr ⟨fun h => ?_, fun h => by rw [h.1, h.2]⟩
  exact List.append_inj' h ((hlen d p hdd).trans (hlen e q hee).symm)

theorem metaApart_iff (hd : d.Normal) (he : e.Normal) :
    d.metaSlot suffix p ≠ e.metaSlot suffix q ↔ MetaApart suffix d e p q := by
  unfold MetaApart
  split
  · next hpath =>
    rw [DBConfig.metaSlot, DBConfig.metaSlot, DBConfig.metaHome, DBConfig.metaHome, DBConfig.metaName,
      DBConfig.metaName, if_pos hpath.1, if_pos hpath.2, if_pos hpath.1, if_pos hpath.2,
      List.append_nil, List.append_nil, ← absStr_ne_iff, ← hd.metaPath.eq hpath.1,
      ← he.metaPath.eq hpath.2]
  · split
    · next hdefault => exact metaSlot_ne_iff_default hd he hdefault.1 hdefault.2
    · exact not_congr List.append_eq_append_iff

end Apart

/-- Two databases are replicated to different replica directories, with different
meta paths, exactly when their entries keep them apart. -/
theorem storage_distinct_iff {getwd : Getwd} {lower : Char → Char} {c cfg : Config} {suffix : Name}
    (haccept : applyDefaultsAndValidate getwd lower c = .ok cfg) {i j : Nat} {d e : DBConfig}
    (hd : cfg.dbs[i]? = some d) (he : cfg.dbs[j]? = some e) {p q : Path}
    (hp : Replicates D cfg d p) (hq : Replicates D cfg e q) (hne : p ≠ q) {given given' : Str × Str}
    (hg : Gives D suffix d p given) (hg' : Gives D suffix e q given') :
    (given.1 ≠ given'.1 ∧ given.2 ≠ given'.2) ↔ StorageApart suffix i j d e p q := by
  have hnormal := (applyDefaultsAndValidate_normal haccept).dbs
  have hdn := hnormal d (List.mem_of_getElem? hd)
  have hen := hnormal e (List.mem_of_getElem? he)
  rw [hg.eq, hg'.eq]
  dsimp only
  rw [replicaPathFor_eq hdn hp.found, replicaPathFor_eq hen hq.found,
    metaPathFor_eq hdn hp.found, metaPathFor_eq hen hq.found, absStr_ne_iff, absStr_ne_iff, StorageApart]
  split
  · next hij =>
    subst hij
    obtain rfl : d = e := Option.some.inj (hd.symm.trans he)
    rw [hp.found.metaSlot_ne_iff hq.found hne]
    exact and_iff_right (hp.found.replicaSlot_ne hq.found hne).2
  · rw [replicasApart_iff hdn hen, metaApart_iff hdn hen]

/-- Two databases of the same name in two directories. -/
def twoDatabases : World Trees :=
  World.still
    (.ofList [([], .dir ⟨0o755, 4096, 1⟩), (absComps "/db", .dir ⟨0o755, 4096, 1⟩),
      (absComps "/db/a", .dir ⟨0o755, 4096, 1⟩),
      (absComps "/db/a/x.db", .file ⟨0o644, 7, sqliteHeader⟩),
      (absComps "/db/b", .dir ⟨0o755, 4096, 1⟩),
      (absComps "/db/b/x.db", .file ⟨0o644, 7, sqliteHeader⟩)])
    .empty fun n => 100 + n

def someSuffix : Name := ⟨"-meta".toList, by decide⟩

/-- With a `meta-dir`, a recursive entry keeps the two apart. -/
theorem storage_distinct_two : ∃ (cfg : Config) (d : DBConfig) (given given' : Str × Str),
    applyDefaultsAndValidate rootWd id (.withDBs [dirEntry "/db" "/meta"]) = .ok cfg ∧
    cfg.dbs[0]? = some d ∧ Replicates Trees cfg d (absComps "/db/a/x.db") ∧
    Replicates Trees cfg d (absComps "/db/b/x.db") ∧ Gives Trees someSuffix d (absComps "/db/a/x.db") given ∧
    Gives Trees someSuffix d (absComps "/db/b/x.db") given' ∧ given.1 ≠ given'.1 ∧ given.2 ≠ given'.2 := by
  obtain ⟨cfg, hcfg, hP⟩ := of_acceptedWith rootWd id
    (.withDBs [dirEntry "/db" "/meta"])
    (fun cfg => decide (cfg.netfin.dryRun = false ∧ cfg.dbs = [(dirEntry "/db" "/meta").filled]))
    (by decide +kernel)
  obtain ⟨hdry, hdbs⟩ := of_decide_eq_true hP
  have hd : cfg.dbs[0]? = some (dirEntry "/db" "/meta").filled := by rw [hdbs]; rfl
  have hrun := run_of_value (x := runReplicator false (dirEntry "/db" "/meta").filled 1)
    (s := twoDatabases) (a := [absComps "/db/b/x.db", absComps "/db/a/x.db"]) (by decide +kernel)
  rw [← hdry] at hrun
  have ha : Replicates Trees cfg _ (absComps "/db/a/x.db") := ⟨1, _, _, _, hrun, by simp⟩
  have hb : Replicates Trees cfg _ (absComps "/db/b/x.db") := ⟨1, _, _, _, hrun, by simp⟩
  obtain ⟨given, hg⟩ := run_of_returns
    (x := runOnce someSuffix (dirEntry "/db" "/meta").filled (absComps "/db/a/x.db")) (s := twoDatabases)
    (by decide +kernel)
  obtain ⟨given', hg'⟩ := run_of_returns
    (x := runOnce someSuffix (dirEntry "/db" "/meta").filled (absComps "/db/b/x.db")) (s := twoDatabases)
    (by decide +kernel)
  refine ⟨cfg, _, given, given', hcfg, hd, ha, hb, ⟨_, _, hg⟩, ⟨_, _, hg'⟩, ?_⟩
  refine (storage_distinct_iff hcfg hd hd ha hb (by decide +kernel) ⟨_, _, hg⟩ ⟨_, _, hg'⟩).2 ?_
  exact ⟨rfl, .inl (by decide)⟩

/-- Two explicit entries that leave the replica to the default share everything. -/
theorem storage_shared : ∃ (cfg : Config) (d e : DBConfig) (given given' : Str × Str),
    applyDefaultsAndValidate rootWd id
      (.withDBs [pathEntry "/db/a/x.db", pathEntry "/db/b/x.db"]) = .ok cfg ∧
    cfg.dbs[0]? = some d ∧ cfg.dbs[1]? = some e ∧ Replicates Trees cfg d (absComps "/db/a/x.db") ∧
    Replicates Trees cfg e (absComps "/db/b/x.db") ∧
    absComps "/db/a/x.db" ≠ absComps "/db/b/x.db" ∧
    Gives Trees someSuffix d (absComps "/db/a/x.db") given ∧
    Gives Trees someSuffix e (absComps "/db/b/x.db") given' ∧
    given.1 = given'.1 ∧ given.2 = given'.2 := by
  obtain ⟨cfg, hcfg, hP⟩ := of_acceptedWith rootWd id
    (.withDBs [pathEntry "/db/a/x.db", pathEntry "/db/b/x.db"])
    (fun cfg => decide (cfg.netfin.dryRun = false ∧
      cfg.dbs = [(pathEntry "/db/a/x.db").filled, (pathEntry "/db/b/x.db").filled]))
    (by decide +kernel)
  obtain ⟨hdry, hdbs⟩ := of_decide_eq_true hP
  have hruna := run_of_value (x := runReplicator false (pathEntry "/db/a/x.db").filled 1)
    (s := twoDatabases) (a := [absComps "/db/a/x.db"]) (by decide +kernel)
  have hrunb := run_of_value (x := runReplicator false (pathEntry "/db/b/x.db").filled 1)
    (s := twoDatabases) (a := [absComps "/db/b/x.db"]) (by decide +kernel)
  rw [← hdry] at hruna hrunb
  have hg := run_of_value (x := runOnce someSuffix (pathEntry "/db/a/x.db").filled (absComps "/db/a/x.db"))
    (s := twoDatabases) (a := ("/backup/sqlite", "/backup/sqlite/.metadata/x.db-meta"))
    (by decide +kernel)
  have hg' := run_of_value (x := runOnce someSuffix (pathEntry "/db/b/x.db").filled (absComps "/db/b/x.db"))
    (s := twoDatabases) (a := ("/backup/sqlite", "/backup/sqlite/.metadata/x.db-meta"))
    (by decide +kernel)
  exact ⟨cfg, _, _, _, _, hcfg, by rw [hdbs]; rfl, by rw [hdbs]; rfl,
    ⟨1, _, _, _, hruna, by simp⟩, ⟨1, _, _, _, hrunb, by simp⟩, by decide +kernel,
    ⟨_, _, hg⟩, ⟨_, _, hg'⟩, rfl, rfl⟩

end Storage

end Dockerset.Netfin

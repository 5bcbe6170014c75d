import Dockerset.Netfin.SqliteRepl
import Dockerset.Os.Trees

/-!
# Databases and the file mirror

The files of a replicated database must not be mirrored as ordinary files. What
keeps them out is a list of patterns, put together by the validation from the
built-in ones, the user's, and those derived from the entries of the databases.
`Shielded` says for a path what makes it excluded; `excluded_iff` that this is
what the excluder of an accepted configuration computes.

The side files `-wal`, `-shm` and `-journal` are covered only for names and
patterns that contain `.db` or, without `-journal`, `.sqlite`.
-/

namespace Dockerset.Netfin
open Go Os Logic

/-! ## Trimming and removing duplicates -/

theorem dropWhile_trimSpace (s : Str) : (trimSpace s).dropWhile isSpace = trimSpace s := by
  unfold trimSpace
  cases hd : s.dropWhile isSpace with
  | nil => rfl
  | cons c t =>
    have hc : isSpace c = false := by
      have h := List.head_dropWhile_not isSpace (l := s) (by simp [hd])
      simpa [hd] using h
    have hpre : (c :: t).rdropWhile isSpace <+: c :: t := List.rdropWhile_prefix isSpace _
    cases hr : (c :: t).rdropWhile isSpace with
    | nil => rfl
    | cons d u =>
      rw [hr, List.cons_prefix_cons] at hpre
      rw [List.dropWhile_cons, if_neg (by simp [hpre.1, hc])]

theorem trimSpace_trimSpace (s : Str) : trimSpace (trimSpace s) = trimSpace s := by
  have h : trimSpace (trimSpace s) = (trimSpace s).rdropWhile isSpace := by
    conv_lhs => rw [trimSpace, dropWhile_trimSpace]
  rw [h]
  exact List.rdropWhile_idempotent _ _

theorem trimSpace_append {s t : Str} (hs : trimSpace s = s) (hne : s ≠ [])
    (ht : t.rdropWhile isSpace = t) : trimSpace (s ++ t) = s ++ t := by
  have hleft : s.dropWhile isSpace = s := by
    have h := dropWhile_trimSpace s
    rwa [hs] at h
  have hright : s.rdropWhile isSpace = s := by
    rwa [trimSpace, hleft] at hs
  rw [trimSpace, List.dropWhile_append, hleft, if_neg (by simpa using hne)]
  by_cases h0 : t = []
  · rw [h0, List.append_nil, hright]
  · have hrev : t.reverse.dropWhile isSpace = t.reverse :=
      List.reverse_injective (by simpa [List.rdropWhile] using ht)
    rw [List.rdropWhile, List.reverse_append, List.dropWhile_append, hrev,
      if_neg (by simpa using h0)]
    simp

theorem mem_dedupeFrom {v : Str} (values seen : List Str) :
    v ∈ dedupeFrom seen values ↔ v ∉ seen ∧ v ≠ [] ∧ ∃ u ∈ values, trimSpace u = v := by
  induction values generalizing seen with
  | nil => simp [dedupeFrom]
  | cons u values ih =>
    simp only [dedupeFrom, List.exists_mem_cons_iff]
    split_ifs with h
    · rw [ih]
      refine and_congr_right fun hv => and_congr_right fun hne => (or_iff_right ?_).symm
      rintro rfl
      exact h.elim hne hv
    · rw [not_or] at h
      rw [List.mem_cons, ih, List.mem_cons, not_or]
      by_cases hu : v = trimSpace u
      · subst hu
        simp [h.1, h.2]
      · simp [hu, Ne.symm hu]

theorem mem_dedupe {v : Str} {values : List Str} :
    v ∈ dedupe values ↔ v ≠ [] ∧ ∃ u ∈ values, trimSpace u = v := by
  rw [dedupe, mem_dedupeFrom]
  simp

/-! ## What one pattern excludes -/

theorem pathBase_concat (q : Path) (x : Name) : pathBase (Path.str (q ++ [x])) = x.val := by
  by_cases hq : q = []
  · subst hq
    rw [List.nil_append, Path.str_singleton, pathBase, List.rtakeWhile_eq_self_iff]
    intro c hc
    have hne : c ≠ '/' := by
      rintro rfl
      exact x.property.2.1 hc
    simpa using hne
  · rw [Path.str_concat hq, pathBase, rtakeWhile_name]

theorem patternExcludes_star {ext : Str} (hlit : ext.all isLiteral = true) (hext : '/' ∉ ext)
    {p : Path} (hp : p ≠ []) : patternExcludes ('*' :: ext) p.str = true ↔ ext <:+ p.str := by
  obtain ⟨q, x, rfl⟩ := (List.eq_nil_or_concat' p).resolve_left hp
  have hslash : '/' ∉ '*' :: ext := by simp [hext]
  have hdeep : ['/', '*', '*'].isSuffixOf ('*' :: ext) = false := by
    rw [Bool.eq_false_iff, ne_eq, List.isSuffixOf_iff_suffix]
    exact fun h => hslash (h.subset List.mem_cons_self)
  simp only [patternExcludes, if_neg (List.cons_ne_nil _ _), hdeep, Bool.false_eq_true, if_false,
    pathBase_concat, Bool.or_eq_true, Bool.and_eq_true, globMatches_star hlit]
  rw [suffix_str_concat hext]
  constructor
  · rintro (⟨-, u, hu, -⟩ | ⟨u, hu, -⟩)
    · exact ⟨u, hu.symm⟩
    · exact (suffix_str_concat hext q x).1 ⟨u, hu.symm⟩
  · rintro ⟨u, hu⟩
    refine .inl ⟨by simpa using hslash, u, hu.symm, fun h => x.property.2.1 ?_⟩
    rw [← hu]
    exact List.mem_append_left _ h

theorem patternExcludes_name {y : Name} (hlit : y.val.all isLiteral = true) (q : Path) :
    patternExcludes y.val (Path.str (q ++ [y])) = true := by
  have hdeep : ['/', '*', '*'].isSuffixOf y.val = false := by
    rw [Bool.eq_false_iff, ne_eq, List.isSuffixOf_iff_suffix]
    exact fun h => y.property.2.1 (h.subset List.mem_cons_self)
  have hbase : globMatches y.val (pathBase (Path.str (q ++ [y]))) = true := by
    rw [globMatches_literal hlit, pathBase_concat]
  have hslash : '/' ∉ y.val := y.property.2.1
  simp [patternExcludes, y.property.1, hdeep, hbase, hslash]

theorem patternExcludes_dir (d : Name) (p : Path) :
    patternExcludes (d.val ++ ['/', '*', '*']) p.str = true ↔ [d] <+: p := by
  have hsuf : ['/', '*', '*'].isSuffixOf (d.val ++ ['/', '*', '*']) = true := by
    rw [List.isSuffixOf_iff_suffix]
    exact List.suffix_append _ _
  have htake : (d.val ++ ['/', '*', '*']).take ((d.val ++ ['/', '*', '*']).length - 3) = d.val := by
    simp
  have hbelow := hasPathPrefix_str (p := p) (List.cons_ne_nil d [])
  rw [Path.str_singleton, hasPathPrefix] at hbelow
  simp only [patternExcludes, hsuf, htake, if_true]
  rw [if_neg (by simp), Bool.or_eq_true, hbelow, beq_iff_eq, ← Path.str_singleton]
  constructor
  · rintro (h | h)
    · rw [Path.str_inj h]
    · exact h.1
  · intro h
    by_cases hd : [d] = p
    · exact .inl (by rw [hd])
    · exact .inr ⟨h, hd⟩

/-! ## What the patterns of a configuration exclude -/

/-- The endings of the built-in patterns `*.db`, `*.db-wal` and so on. -/
def sqliteExtensions : List Str :=
  [".db", ".db-wal", ".db-shm", ".db-journal", ".sqlite", ".sqlite-wal", ".sqlite-shm"]

/-- The directories of the built-in patterns `SQLiteBackups/**` and so on. -/
def builtinDirs : List Name :=
  [⟨"SQLiteBackups".toList, by decide⟩, ⟨"cache".toList, by decide⟩,
    ⟨"transcodes".toList, by decide⟩, ⟨"log".toList, by decide⟩]

/-- The pattern and the file name of an entry, from which patterns are derived. -/
def DBConfig.stems (db : DBConfig) : List Str :=
  (((if db.pattern = [] then [] else [db.pattern]) ++
    if db.path = [] then [] else [filepathBase db.path]).map fun s => (clean s).str).filter
      fun q => q ≠ ['.'] ∧ q ≠ []

/-- What is derived from a stem: the side files, if the stem looks like the name
of a database. -/
def sidesOf (q : Str) : List Str :=
  [] :: ((if containsStr ".db" q then ["-wal".toList, "-shm".toList, "-journal".toList] else []) ++
    if containsStr ".sqlite" q then ["-wal".toList, "-shm".toList] else [])

/-- What makes a path excluded, given the user's patterns and the entries of the
databases. -/
inductive Shielded (patterns : List Str) (dbs : List DBConfig) (p : Path) : Prop
  | extension (ext : Str) : ext ∈ sqliteExtensions → ext <:+ p.str → Shielded patterns dbs p
  | directory (d : Name) : d ∈ builtinDirs → [d] <+: p → Shielded patterns dbs p
  | user (u : Str) : u ∈ patterns → patternExcludes (trimSpace u) p.str = true →
      Shielded patterns dbs p
  | entry (db : DBConfig) (q side : Str) : db ∈ dbs → q ∈ db.stems → side ∈ sidesOf q →
      patternExcludes (trimSpace (q ++ side)) p.str = true → Shielded patterns dbs p

theorem baseExcludePatterns_eq : baseExcludePatterns =
    sqliteExtensions.map ('*' :: ·) ++ builtinDirs.map fun d => d.val ++ ['/', '*', '*'] := by
  decide

theorem mem_derivedPatterns {s v : Str} : v ∈ derivedPatterns s ↔
    ((clean s).str ≠ ['.'] ∧ (clean s).str ≠ []) ∧
      ∃ side ∈ sidesOf (clean s).str, (clean s).str ++ side = v := by
  unfold derivedPatterns
  by_cases h : (clean s).str = ['.'] ∨ (clean s).str = []
  · simp only [if_pos h, List.not_mem_nil, false_iff, not_and]
    exact fun hne => absurd h (not_or.2 hne)
  · rw [and_iff_right (not_or.1 h)]
    simp only [if_neg h]
    unfold sidesOf
    split_ifs <;> simp [eq_comm]

theorem mem_sqliteExcludePatterns {db : DBConfig} {v : Str} : v ∈ sqliteExcludePatterns db ↔
    ∃ q ∈ db.stems, ∃ side ∈ sidesOf q, q ++ side = v := by
  unfold sqliteExcludePatterns DBConfig.stems
  simp only [List.mem_flatMap, mem_derivedPatterns, List.mem_filter, List.mem_map,
    decide_eq_true_eq]
  constructor
  · rintro ⟨s, hs, hne, hside⟩
    exact ⟨_, ⟨⟨s, hs, rfl⟩, hne⟩, hside⟩
  · rintro ⟨_, ⟨⟨s, hs, rfl⟩, hne⟩, hside⟩
    exact ⟨s, hs, hne, hside⟩

theorem patternExcludes_extension {ext : Str} (hext : ext ∈ sqliteExtensions) {p : Path}
    (hp : p ≠ []) : patternExcludes (trimSpace ('*' :: ext)) p.str = true ↔ ext <:+ p.str := by
  have htext : ∀ ext ∈ sqliteExtensions,
      trimSpace ('*' :: ext) = '*' :: ext ∧ ext.all isLiteral = true ∧ '/' ∉ ext := by
    decide +kernel
  obtain ⟨htrim, hlit, hslash⟩ := htext ext hext
  rw [htrim]
  exact patternExcludes_star hlit hslash hp

theorem patternExcludes_builtinDir {d : Name} (hd : d ∈ builtinDirs) (p : Path) :
    patternExcludes (trimSpace (d.val ++ ['/', '*', '*'])) p.str = true ↔ [d] <+: p := by
  have htext : ∀ d ∈ builtinDirs,
      trimSpace (d.val ++ ['/', '*', '*']) = d.val ++ ['/', '*', '*'] := by decide +kernel
  rw [htext d hd]
  exact patternExcludes_dir d p

/-- The patterns of a configuration, before trimming. -/
theorem excluded_iff_pattern {patterns : List Str} {cfg : Config} (h : cfg.Normal patterns)
    {p : Path} (hp : p ≠ []) :
    (newExcluder cfg.netfin.excludePatterns).excluded p = true ↔
      ∃ v ∈ baseExcludePatterns ++ patterns ++ cfg.dbs.flatMap sqliteExcludePatterns,
        patternExcludes (trimSpace v) p.str = true := by
  have hempty : patternExcludes [] p.str = false := rfl
  simp only [Excluder.excluded, if_neg hp, newExcluder, List.any_map, List.any_eq_true,
    Function.comp_apply, h.patterns, mem_dedupe, List.mem_append]
  constructor
  · rintro ⟨_, ⟨-, u, hu, rfl⟩, hex⟩
    rw [trimSpace_trimSpace] at hex
    rcases hu with ⟨-, v, hv, rfl⟩ | hu
    · rw [trimSpace_trimSpace] at hex
      exact ⟨v, .inl hv, hex⟩
    · exact ⟨u, .inr hu, hex⟩
  · rintro ⟨v, hv, hex⟩
    have hne : trimSpace v ≠ [] := by
      intro h0
      rw [h0, hempty] at hex
      cases hex
    refine ⟨trimSpace v, ⟨hne, ?_⟩, by rwa [trimSpace_trimSpace]⟩
    rcases hv with hv | hv
    · exact ⟨trimSpace v, .inl ⟨hne, v, hv, rfl⟩, trimSpace_trimSpace v⟩
    · exact ⟨v, .inr hv, rfl⟩

/-- **What is excluded**: the paths that are shielded, and no others. -/
theorem excluded_iff {patterns : List Str} {cfg : Config} (h : cfg.Normal patterns) {p : Path}
    (hp : p ≠ []) : (newExcluder cfg.netfin.excludePatterns).excluded p = true ↔
      Shielded patterns cfg.dbs p := by
  rw [excluded_iff_pattern h hp]
  constructor
  · rintro ⟨v, hv, hex⟩
    rw [List.mem_append, List.mem_append, baseExcludePatterns_eq, List.mem_append] at hv
    rcases hv with ((hv | hv) | hv) | hv
    · obtain ⟨ext, hext, rfl⟩ := List.mem_map.1 hv
      exact .extension ext hext ((patternExcludes_extension hext hp).1 hex)
    · obtain ⟨d, hd, rfl⟩ := List.mem_map.1 hv
      exact .directory d hd ((patternExcludes_builtinDir hd p).1 hex)
    · exact .user v hv hex
    · obtain ⟨db, hdb, hv⟩ := List.mem_flatMap.1 hv
      obtain ⟨q, hq, side, hside, rfl⟩ := mem_sqliteExcludePatterns.1 hv
      exact .entry db q side hdb hq hside hex
  · intro hs
    rw [baseExcludePatterns_eq]
    cases hs with
    | extension ext hext hsuf =>
      exact ⟨_, by simp [hext], (patternExcludes_extension hext hp).2 hsuf⟩
    | directory d hd hpre =>
      refine ⟨_, ?_, (patternExcludes_builtinDir hd p).2 hpre⟩
      have hmem := List.mem_map_of_mem (f := fun d : Name => d.val ++ ['/', '*', '*']) hd
      exact List.mem_append_left _ (List.mem_append_left _ (List.mem_append_right _ hmem))
    | user u hu hex => exact ⟨u, by simp [hu], hex⟩
    | entry db q side hdb hq hside hex =>
      have hmem := mem_sqliteExcludePatterns.2 ⟨q, hq, side, hside, rfl⟩
      exact ⟨_, List.mem_append_right _ (List.mem_flatMap.2 ⟨db, hdb, hmem⟩), hex⟩

/-! ## The files of the databases -/

section LiveFiles

variable {D : Type} [Disk D]

/-- A database of an entry: its path, or a path that is discovered in its
directory. -/
inductive IsDatabase (w : World D) (db : DBConfig) (p : Path) : Prop
  | path : db.path ≠ [] → absComps db.path = p → IsDatabase w db p
  | found (paths : List Path) (err : Option Err) (w' : World D) : db.dir ≠ [] →
      (discoverDBPaths db).run w = .ok (paths, err) w' → p ∈ paths → IsDatabase w db p

/-- What SQLite adds to the name of a database. -/
def sqliteSides : List Str := ["", "-wal", "-shm", "-journal"]

/-- The path `q` below the configuration directory is a file of a database. -/
def LiveFile (w : World D) (cfg : Config) (q : Path) : Prop :=
  ∃ db ∈ cfg.dbs, ∃ r : Path, r ≠ [] ∧ IsDatabase w db (absComps cfg.netfin.configDir ++ r) ∧
    ∃ side ∈ sqliteSides, q = (clean (r.str ++ side)).comps

theorem str_sqliteSide {r : Path} (hr : r ≠ []) {side : Str} (hside : side ∈ sqliteSides) :
    (clean (r.str ++ side)).comps.str = r.str ++ side := by
  have hslash : ∀ s ∈ sqliteSides, '/' ∉ s := by decide +kernel
  exact clean_str_append hr (hslash side hside)

theorem LiveFile.ne_root {w : World D} {cfg : Config} {q : Path} (h : LiveFile w cfg q) :
    q ≠ [] := by
  obtain ⟨-, -, r, hr, -, side, hside, rfl⟩ := h
  intro h0
  have hstr := str_sqliteSide hr hside
  rw [h0] at hstr
  rcases List.append_eq_singleton_iff.1 hstr.symm with ⟨h, -⟩ | ⟨h, -⟩
  · exact Path.str_ne_nil r h
  · exact hr (Path.str_eq_dot.1 h)

/-- All four files of a database whose name ends in `.db` are shielded, whatever
the configuration. -/
theorem shielded_of_db {r : Path} (hr : r ≠ []) (hdb : ".db".toList <:+ r.str) {side : Str}
    (hside : side ∈ sqliteSides) (patterns : List Str) (dbs : List DBConfig) :
    Shielded patterns dbs (clean (r.str ++ side)).comps := by
  have hext : ∀ s ∈ sqliteSides, ".db".toList ++ s ∈ sqliteExtensions := by decide +kernel
  refine .extension _ (hext side hside) ?_
  rw [str_sqliteSide hr hside]
  obtain ⟨u, hu⟩ := hdb
  exact ⟨u, by rw [← hu, List.append_assoc]⟩

/-- A name that stands for itself as a pattern: no glob characters, and no white
space around it. -/
def NamesItself (x : Name) : Prop := x.val.all isLiteral = true ∧ trimSpace x.val = x.val

theorem sidesOf_subset (q : Str) : sidesOf q ⊆ sqliteSides := by
  unfold sidesOf
  split_ifs <;> simp_all [sqliteSides]

/-- The files that the entry of a database shields by its name. -/
theorem shielded_of_name {db : DBConfig} (hnormal : db.Normal) (hpath : db.path ≠ []) {p r : Path}
    {x : Name} (hx : absComps db.path = p ++ [x]) (hself : NamesItself x) {side : Str}
    (hside : side ∈ sidesOf x.val) {dbs : List DBConfig} (hdb : db ∈ dbs) (patterns : List Str) :
    Shielded patterns dbs (clean (Path.str (r ++ [x]) ++ side)).comps := by
  have htext : ∀ s ∈ sqliteSides,
      '/' ∉ s ∧ s.all isLiteral = true ∧ s.rdropWhile isSpace = s := by decide +kernel
  obtain ⟨hslash, hlit, htrim⟩ := htext side (sidesOf_subset _ hside)
  have hstem : x.val ∈ db.stems := by
    have hbase : filepathBase db.path = x.val := by
      rw [hnormal.path.eq hpath, hx, filepathBase_absStr]
    have hclean : (clean x.val).str = x.val := by
      rw [← Path.str_singleton, clean_path]
      exact Cleaned.str_of_confined rfl
    rw [DBConfig.stems, List.mem_filter, List.mem_map]
    refine ⟨⟨x.val, ?_, hclean⟩, ?_⟩
    · rw [if_neg hpath, hbase]
      exact List.mem_append_right _ (List.mem_singleton_self _)
    · exact decide_eq_true ⟨x.property.2.2.1, x.property.1⟩
  let y : Name := ⟨x.val ++ side, validName_append x hslash⟩
  have hy : (clean (Path.str (r ++ [x]) ++ side)).comps = r ++ [y] := by
    rw [str_concat_append hslash, clean_path]
  rw [hy]
  refine .entry db x.val side hdb hstem hside ?_
  rw [trimSpace_append hself.2 x.property.1 htrim]
  exact patternExcludes_name (y := y) (by rw [List.all_append, hself.1, hlit]; rfl) r

/-- A file of a replicated database is kept out of the mirror exactly when it is
shielded. An entry with a path shields its database if the name stands for itself,
and the side files too if `.db` or `.sqlite` is in the name; `-journal` only for `.db`. -/
theorem live_file_excluded_iff {getwd : Getwd} {lower : Char → Char} {c cfg : Config}
    (haccept : applyDefaultsAndValidate getwd lower c = .ok cfg) {w : World D} {q : Path}
    (hq : LiveFile w cfg q) :
    ((newExcluder cfg.netfin.excludePatterns).excluded q = true ↔
      Shielded c.netfin.excludePatterns cfg.dbs q) ∧
    ∀ db ∈ cfg.dbs, db.path ≠ [] → ∀ (r : Path) (x : Name),
      absComps db.path = absComps cfg.netfin.configDir ++ r ++ [x] → NamesItself x →
      ∀ side ∈ sidesOf x.val, q = (clean (Path.str (r ++ [x]) ++ side)).comps →
        (newExcluder cfg.netfin.excludePatterns).excluded q = true := by
  have hnormal := applyDefaultsAndValidate_normal haccept
  have hiff := excluded_iff hnormal hq.ne_root
  refine ⟨hiff, fun db hdb hpath r x hx hself side hside hqx => hiff.2 ?_⟩
  rw [hqx]
  exact shielded_of_name (hnormal.dbs db hdb) hpath hx hself hside hdb _

end LiveFiles

/-- Two databases in the configuration directory. -/
def configWorld : World Trees :=
  World.still
    (.ofList [([], .dir ⟨0o755, 4096, 1⟩), (absComps "/config", .dir ⟨0o755, 4096, 1⟩),
      (absComps "/config/jellyfin.db", .file ⟨0o644, 7, sqliteHeader⟩),
      (absComps "/config/x.sqlite", .file ⟨0o644, 7, sqliteHeader⟩)])
    .empty fun n => 100 + n

/-- The four files of a database with the usual name. -/
theorem live_files_excluded_jellyfin : ∃ cfg : Config,
    applyDefaultsAndValidate rootWd id (.withDBs [pathEntry "/config/jellyfin.db"]) = .ok cfg ∧
    ∀ side ∈ sqliteSides, LiveFile configWorld cfg (absComps ("/jellyfin.db".toList ++ side)) ∧
      (newExcluder cfg.netfin.excludePatterns).excluded
        (absComps ("/jellyfin.db".toList ++ side)) = true := by
  obtain ⟨cfg, hcfg, hP⟩ := of_acceptedWith rootWd id
    (.withDBs [pathEntry "/config/jellyfin.db"])
    (fun cfg => decide (absComps cfg.netfin.configDir = absComps "/config" ∧
      cfg.dbs = [(pathEntry "/config/jellyfin.db").filled])) (by decide +kernel)
  obtain ⟨hdir, hdbs⟩ := of_decide_eq_true hP
  refine ⟨cfg, hcfg, fun side hside => ?_⟩
  have hr : absComps "/jellyfin.db" ≠ [] := by decide +kernel
  have hq : ∀ s ∈ sqliteSides, absComps ("/jellyfin.db".toList ++ s) =
      (clean ((absComps "/jellyfin.db").str ++ s)).comps := by decide +kernel
  have hlive : LiveFile configWorld cfg (absComps ("/jellyfin.db".toList ++ side)) := by
    refine ⟨(pathEntry "/config/jellyfin.db").filled, by simp [hdbs], absComps "/jellyfin.db", hr,
      .path (by decide) ?_, side, hside, hq side hside⟩
    rw [hdir]
    decide +kernel
  refine ⟨hlive, (live_file_excluded_iff hcfg hlive).1.2 ?_⟩
  rw [hq side hside]
  exact shielded_of_db hr (by decide +kernel) hside _ _

/-- For a database `x.sqlite` there is no pattern for `x.sqlite-journal`. -/
theorem live_file_mirrored : ∃ (cfg : Config) (db : DBConfig),
    applyDefaultsAndValidate rootWd id (.withDBs [pathEntry "/config/x.sqlite"]) = .ok cfg ∧
    db ∈ cfg.dbs ∧ value (discoverDBPaths db) configWorld = some ([absComps "/config/x.sqlite"], none) ∧
    LiveFile configWorld cfg (absComps "/x.sqlite-journal") ∧
    (newExcluder cfg.netfin.excludePatterns).excluded (absComps "/x.sqlite-journal") = false := by
  obtain ⟨cfg, hcfg, hP⟩ := of_acceptedWith rootWd id
    (.withDBs [pathEntry "/config/x.sqlite"])
    (fun cfg => decide (absComps cfg.netfin.configDir = absComps "/config" ∧
      cfg.dbs = [(pathEntry "/config/x.sqlite").filled] ∧
      (newExcluder cfg.netfin.excludePatterns).excluded (absComps "/x.sqlite-journal") = false))
    (by decide +kernel)
  obtain ⟨hdir, hdbs, hex⟩ := of_decide_eq_true hP
  have hlive : LiveFile configWorld cfg (absComps "/x.sqlite-journal") := by
    refine ⟨(pathEntry "/config/x.sqlite").filled, by simp [hdbs], absComps "/x.sqlite",
      by decide +kernel, .path (by decide) ?_, "-journal", by decide, by decide +kernel⟩
    rw [hdir]
    decide +kernel
  exact ⟨cfg, (pathEntry "/config/x.sqlite").filled, hcfg, by simp [hdbs], by decide +kernel, hlive,
    hex⟩

end Dockerset.Netfin

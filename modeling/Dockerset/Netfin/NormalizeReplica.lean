import Dockerset.Netfin.Config

/-!
# What `normalizeReplica` keeps

A database entry can give its replica as `replica` or as the single element of
`replicas`. `normalizeReplica` takes a record for given when it has a path, a URL
or a type; the sync interval does not count, and the URL, once it has counted,
is not looked at again.
-/

namespace Dockerset.Netfin
open Go Logic

/-- A record with nothing in it. -/
def zeroReplica : ReplicaConfig := ⟨[], [], [], 0⟩

/-- The replicas that an entry gives: `replica` unless it is empty, and `replicas`. -/
def givenReplicas (db : DBConfig) : List ReplicaConfig :=
  (if db.replica = zeroReplica then [] else [db.replica]) ++ db.replicas

/-- The result says what was configured: a file replica at the configured place,
or at the default one, with the configured interval. -/
structure ReplicaKept (getwd : Getwd) (configured out : ReplicaConfig) : Prop where
  type : out.type = defaultSQLiteReplicaType
  path : filepathAbs getwd (orDefault [] configured.path defaultSQLiteBackupDir) = .ok out.path
  syncInterval : out.syncInterval = configured.syncInterval

/-- At most one replica is given, and it is a local file replica. -/
structure LocalFileReplica (db : DBConfig) : Prop where
  single : (givenReplicas db).length ≤ 1
  type : ∀ r ∈ givenReplicas db, r.type = [] ∨ r.type = defaultSQLiteReplicaType
  url : ∀ r ∈ givenReplicas db, r.url = []

/-! ## What the code goes by -/

/-- The record that counts. -/
def chosenReplica (db : DBConfig) : ReplicaConfig :=
  if db.replica.isSet then db.replica else db.replicas.headD zeroReplica

/-- The entry is accepted: one record, of type `file`, with a path that can be made
absolute. -/
structure ReplicaAccepted (getwd : Getwd) (db : DBConfig) : Prop where
  alone : db.replica.isSet = true → db.replicas = []
  single : db.replicas.length ≤ 1
  type : (chosenReplica db).type = [] ∨ (chosenReplica db).type = defaultSQLiteReplicaType
  path : ∃ p, filepathAbs getwd (orDefault [] (chosenReplica db).path defaultSQLiteBackupDir) = .ok p

/-- The result for a record that counts. -/
def replicaAt (r : ReplicaConfig) (path : Str) : ReplicaConfig :=
  if r.isSet then { r with type := defaultSQLiteReplicaType, path := path }
  else ⟨defaultSQLiteReplicaType, path, [], 0⟩

section

variable {getwd : Getwd} {db : DBConfig} {r out : ReplicaConfig}

theorem isSet_eq_false : r.isSet = false ↔ r.path = [] ∧ r.url = [] ∧ r.type = [] := by
  simp [ReplicaConfig.isSet, and_assoc]

/-- An empty record counts for nothing. -/
theorem eq_zeroReplica (h : r.isSet = false) (hsync : r.syncInterval = 0) : r = zeroReplica := by
  obtain ⟨hpath, hurl, htype⟩ := isSet_eq_false.1 h
  obtain ⟨type, path, url, sync⟩ := r
  simp only at hpath hurl htype hsync
  subst hpath hurl htype hsync
  rfl

theorem normalizeFileReplica_ok_iff (hset : r.isSet = true) :
    normalizeFileReplica getwd r = .ok out ↔
      (r.type = [] ∨ r.type = defaultSQLiteReplicaType) ∧ ∃ p,
        filepathAbs getwd (orDefault [] r.path defaultSQLiteBackupDir) = .ok p ∧ out = replicaAt r p := by
  have htype : orDefault [] r.type defaultSQLiteReplicaType = defaultSQLiteReplicaType ↔
      r.type = [] ∨ r.type = defaultSQLiteReplicaType := by
    unfold orDefault
    split
    · next h => simp [h]
    · next h => simp [h]
  unfold normalizeFileReplica
  dsimp only
  by_cases hfile : r.type = [] ∨ r.type = defaultSQLiteReplicaType
  · rw [htype.2 hfile, if_neg (not_not.2 rfl), except_bind_iff]
    constructor
    · intro h
      obtain ⟨p, hp, hout⟩ := h
      cases hout
      refine ⟨hfile, p, hp, ?_⟩
      rw [replicaAt, if_pos hset]
    · intro h
      obtain ⟨-, p, hp, rfl⟩ := h
      refine ⟨p, hp, ?_⟩
      rw [replicaAt, if_pos hset]
      rfl
  · rw [if_pos (fun h => hfile (htype.1 h))]
    constructor
    · intro h
      cases h
    · intro h
      exact absurd h.1 hfile

theorem defaultReplica_ok_iff (hset : r.isSet = false) :
    defaultReplica getwd = .ok out ↔
      (r.type = [] ∨ r.type = defaultSQLiteReplicaType) ∧ ∃ p,
        filepathAbs getwd (orDefault [] r.path defaultSQLiteBackupDir) = .ok p ∧ out = replicaAt r p := by
  obtain ⟨hpath, -, htype⟩ := isSet_eq_false.1 hset
  have hdefault : orDefault [] r.path defaultSQLiteBackupDir = defaultSQLiteBackupDir := if_pos hpath
  rw [hdefault, defaultReplica, except_bind_iff]
  constructor
  · intro h
    obtain ⟨p, hp, hout⟩ := h
    cases hout
    refine ⟨.inl htype, p, hp, ?_⟩
    rw [replicaAt, if_neg (by rw [hset]; exact Bool.false_ne_true)]
  · intro h
    obtain ⟨-, p, hp, rfl⟩ := h
    refine ⟨p, hp, ?_⟩
    rw [replicaAt, if_neg (by rw [hset]; exact Bool.false_ne_true)]
    rfl

theorem chosen_ok_iff :
    (if r.isSet then normalizeFileReplica getwd r else defaultReplica getwd) = .ok out ↔
      (r.type = [] ∨ r.type = defaultSQLiteReplicaType) ∧ ∃ p,
        filepathAbs getwd (orDefault [] r.path defaultSQLiteBackupDir) = .ok p ∧ out = replicaAt r p := by
  by_cases hset : r.isSet = true
  · rw [if_pos hset]
    exact normalizeFileReplica_ok_iff hset
  · rw [if_neg hset]
    exact defaultReplica_ok_iff (Bool.not_eq_true _ ▸ hset)

theorem normalizeReplica_eq (halone : db.replica.isSet = true → db.replicas = [])
    (hsingle : db.replicas.length ≤ 1) :
    normalizeReplica getwd db.replica db.replicas =
      if (chosenReplica db).isSet then normalizeFileReplica getwd (chosenReplica db)
      else defaultReplica getwd := by
  unfold normalizeReplica chosenReplica
  by_cases hset : db.replica.isSet = true
  · rw [if_pos hset, if_pos hset, if_pos hset, halone hset]
    rfl
  · rw [if_neg hset, if_neg hset]
    rcases hrs : db.replicas with _ | ⟨r, _ | ⟨r', rs⟩⟩
    · rfl
    · rfl
    · rw [hrs] at hsingle
      simp at hsingle

theorem not_accepted_of_two
    (h : ¬ ((db.replica.isSet = true → db.replicas = []) ∧ db.replicas.length ≤ 1)) :
    ∃ e, normalizeReplica getwd db.replica db.replicas = .error e := by
  unfold normalizeReplica
  by_cases hset : db.replica.isSet = true
  · have hne : db.replicas.length > 0 := by
      by_contra hzero
      have hnil : db.replicas = [] := List.eq_nil_of_length_eq_zero (by omega)
      exact h ⟨fun _ => hnil, by omega⟩
    rw [if_pos hset, if_pos hne]
    exact ⟨_, rfl⟩
  · rw [if_neg hset]
    rcases hrs : db.replicas with _ | ⟨r, _ | ⟨r', rs⟩⟩
    · exact absurd ⟨fun hs => absurd hs hset, by simp [hrs]⟩ h
    · exact absurd ⟨fun hs => absurd hs hset, by simp [hrs]⟩ h
    · exact ⟨_, rfl⟩

/-- **What `normalizeReplica` returns.** -/
theorem normalizeReplica_ok_iff :
    normalizeReplica getwd db.replica db.replicas = .ok out ↔
      ReplicaAccepted getwd db ∧ ∃ p,
        filepathAbs getwd (orDefault [] (chosenReplica db).path defaultSQLiteBackupDir) = .ok p ∧
          out = replicaAt (chosenReplica db) p := by
  constructor
  · intro h
    have hone : (db.replica.isSet = true → db.replicas = []) ∧ db.replicas.length ≤ 1 := by
      by_contra htwo
      obtain ⟨e, he⟩ := not_accepted_of_two htwo
      rw [h] at he
      cases he
    rw [normalizeReplica_eq hone.1 hone.2, chosen_ok_iff] at h
    obtain ⟨htype, p, hp, hout⟩ := h
    exact ⟨⟨hone.1, hone.2, htype, p, hp⟩, p, hp, hout⟩
  · intro h
    obtain ⟨haccepted, hp⟩ := h
    rw [normalizeReplica_eq haccepted.alone haccepted.single, chosen_ok_iff]
    exact ⟨haccepted.type, hp⟩

/-! ## What is lost -/

/-- The entry has no URL where the code has chosen, and no interval in a record
that does not count. -/
structure NothingLost (db : DBConfig) : Prop where
  url : (chosenReplica db).url = []
  interval : ∀ r ∈ db.replica :: db.replicas, r.isSet = true ∨ r.syncInterval = 0

theorem mem_given_of_ne_zero (h : r ∈ db.replica :: db.replicas) (hne : r ≠ zeroReplica) :
    r ∈ givenReplicas db := by
  unfold givenReplicas
  rcases List.mem_cons.1 h with rfl | hr
  · rw [if_neg hne]
    exact List.mem_cons_self
  · exact List.mem_append_right _ hr

theorem chosenReplica_mem : chosenReplica db ∈ db.replica :: db.replicas ∨ chosenReplica db = zeroReplica := by
  unfold chosenReplica
  split
  · exact .inl List.mem_cons_self
  · rcases db.replicas with _ | ⟨r, rs⟩
    · exact .inr rfl
    · exact .inl (List.mem_cons_of_mem _ List.mem_cons_self)

theorem NothingLost.given (h : NothingLost db) (hacc : ReplicaAccepted getwd db) :
    givenReplicas db = [] ∧ chosenReplica db = zeroReplica ∨ givenReplicas db = [chosenReplica db] := by
  unfold givenReplicas chosenReplica
  by_cases hset : db.replica.isSet = true
  · right
    have hne : db.replica ≠ zeroReplica := by
      intro heq
      rw [heq] at hset
      revert hset
      decide
    rw [if_neg hne, if_pos hset, hacc.alone hset]
    rfl
  · have hzero : db.replica = zeroReplica := by
      apply eq_zeroReplica (Bool.not_eq_true _ ▸ hset)
      exact (h.interval _ List.mem_cons_self).resolve_left hset
    rw [if_pos hzero, if_neg hset, List.nil_append]
    have hsingle := hacc.single
    rcases hrs : db.replicas with _ | ⟨r, _ | ⟨r', rs⟩⟩
    · exact .inl ⟨rfl, rfl⟩
    · exact .inr rfl
    · rw [hrs] at hsingle
      simp at hsingle

theorem NothingLost.localFile (h : NothingLost db) (hacc : ReplicaAccepted getwd db) :
    LocalFileReplica db := by
  have hmem : ∀ r ∈ givenReplicas db, r = chosenReplica db := by
    intro r hr
    rcases h.given hacc with ⟨hnil, -⟩ | hone
    · rw [hnil] at hr
      cases hr
    · rw [hone] at hr
      exact List.mem_singleton.1 hr
  refine ⟨?_, ?_, ?_⟩
  · rcases h.given hacc with ⟨hnil, -⟩ | hone
    · rw [hnil]
      exact Nat.zero_le _
    · rw [hone]
      exact Nat.le_refl _
  · intro r hr
    rw [hmem r hr]
    exact hacc.type
  · intro r hr
    rw [hmem r hr]
    exact h.url

theorem NothingLost.kept (h : NothingLost db) (hacc : ReplicaAccepted getwd db) {p : Str}
    (hp : filepathAbs getwd (orDefault [] (chosenReplica db).path defaultSQLiteBackupDir) = .ok p) :
    ReplicaKept getwd ((givenReplicas db).headD zeroReplica) (replicaAt (chosenReplica db) p) := by
  have hhead : (givenReplicas db).headD zeroReplica = chosenReplica db := by
    rcases h.given hacc with ⟨hnil, hzero⟩ | hone
    · rw [hnil, hzero]
      rfl
    · rw [hone]
      rfl
  rw [hhead]
  refine ⟨?_, ?_, ?_⟩
  · unfold replicaAt
    split <;> rfl
  · rw [hp]
    unfold replicaAt
    split <;> rfl
  · unfold replicaAt
    split
    · rfl
    · next hunset =>
      rcases chosenReplica_mem with hin | hzero
      · exact ((h.interval _ hin).resolve_left hunset).symm
      · rw [hzero]
        rfl

theorem chosenReplica_given (h : chosenReplica db ≠ zeroReplica) :
    chosenReplica db ∈ givenReplicas db :=
  mem_given_of_ne_zero (chosenReplica_mem.resolve_right h) h

/-- An interval in a record that does not count shows in the result. -/
theorem isSet_of_kept {p : Str} (hlocal : LocalFileReplica db)
    (hkept : ReplicaKept getwd ((givenReplicas db).headD zeroReplica) (replicaAt (chosenReplica db) p))
    (hr : r ∈ db.replica :: db.replicas) (hsync : r.syncInterval ≠ 0) : r.isSet = true := by
  by_contra hset
  have hne : r ≠ zeroReplica := by
    intro heq
    rw [heq] at hsync
    exact hsync rfl
  have hmem := mem_given_of_ne_zero hr hne
  -- the record is the only one given, so its interval is the configured one
  obtain ⟨x, hx⟩ := List.length_eq_one_iff.1
    (Nat.le_antisymm hlocal.single (List.length_pos_of_mem hmem))
  rw [hx, List.mem_singleton] at hmem
  subst hmem
  have hunset : ¬ (chosenReplica db).isSet = true := by
    intro hchosen
    have hne : chosenReplica db ≠ zeroReplica := by
      intro heq
      rw [heq] at hchosen
      revert hchosen
      decide
    have hgiven := chosenReplica_given hne
    rw [hx, List.mem_singleton] at hgiven
    rw [hgiven] at hchosen
    exact hset hchosen
  have hinterval := hkept.syncInterval
  rw [hx, replicaAt, if_neg hunset] at hinterval
  exact hsync hinterval.symm

/-- **When `normalizeReplica` keeps what is set and admits file replicas only**: an
entry that it accepts has no URL, and no sync interval in a record without a
path, URL and type. -/
theorem normalizeReplica_keeps_iff (getwd : Getwd) (db : DBConfig) :
    (∀ out, normalizeReplica getwd db.replica db.replicas = .ok out →
      LocalFileReplica db ∧ ReplicaKept getwd ((givenReplicas db).headD zeroReplica) out) ↔
    (ReplicaAccepted getwd db → NothingLost db) := by
  constructor
  · intro h hacc
    obtain ⟨p, hp⟩ := hacc.path
    obtain ⟨hlocal, hkept⟩ := h _ (normalizeReplica_ok_iff.2 ⟨hacc, p, hp, rfl⟩)
    constructor
    · by_cases hzero : chosenReplica db = zeroReplica
      · rw [hzero]
        rfl
      · exact hlocal.url _ (chosenReplica_given hzero)
    · intro r hr
      by_cases hsync : r.syncInterval = 0
      · exact .inr hsync
      · exact .inl (isSet_of_kept hlocal hkept hr hsync)
  · intro h out hout
    obtain ⟨hacc, p, hp, rfl⟩ := normalizeReplica_ok_iff.1 hout
    exact ⟨(h hacc).localFile hacc, (h hacc).kept hacc hp⟩

end

/-- An entry with a sync interval only: it comes back without it. -/
def intervalOnly : DBConfig :=
  ⟨"/db/a.db".toList, [], [], false, [], [], ⟨[], [], [], 5 * second⟩, []⟩

/-- An entry with the URL of another kind of storage. -/
def remoteURL : DBConfig :=
  ⟨"/db/a.db".toList, [], [], false, [], [], ⟨[], [], "s3://bucket/a".toList, 0⟩, []⟩

/-- The interval is dropped, and the URL is ignored in favour of a local directory. -/
theorem normalizeReplica_loses :
    normalizeReplica rootWd intervalOnly.replica intervalOnly.replicas =
      .ok ⟨"file".toList, "/backup/sqlite".toList, [], 0⟩ ∧
    normalizeReplica rootWd remoteURL.replica remoteURL.replicas =
      .ok ⟨"file".toList, "/backup/sqlite".toList, "s3://bucket/a".toList, 0⟩ := by
  decide +kernel

end Dockerset.Netfin

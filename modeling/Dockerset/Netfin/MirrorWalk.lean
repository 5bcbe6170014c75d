import Dockerset.Netfin.SyncQuiet
import Dockerset.Os.Visits

/-!
# The source walk in a quiet world

`Touch` is what the visit of one source path does to the destination tree and
the state map, and `Pass` a sequence of such visits in the order of a walk. The
walk of `Reconcile` and of `SyncTree` is a `Pass` over the paths that are to be
mirrored, or a `Pass` that got stuck (`wp_mirrorWalk`). What the results about
whole trees need is then a matter of trees and maps, by induction on the pass.
-/

namespace Dockerset.Netfin
open Go Os Logic

/-- `q` is reached by a source walk from `p` and is neither excluded nor a link. -/
structure Reach (S : Tree) (ex : Path → Bool) (p q : Path) : Prop where
  below : p <+: q
  ne_root : q ≠ []
  node : ∃ n, S.get q = some n ∧ n.kind ≠ .symlink
  kept : ∀ d, p <+: d → d <+: q → ex d = false

instance (S : Tree) (ex : Path → Bool) (p q : Path) : Decidable (Reach S ex p q) :=
  decidable_of_iff (p <+: q ∧ q ≠ [] ∧ (∃ n ∈ S.get q, n.kind ≠ .symlink) ∧
    ∀ d ∈ q.inits, p <+: d → ex d = false) <| by
    constructor
    · rintro ⟨h1, h2, ⟨n, hn, hk⟩, h4⟩
      exact ⟨h1, h2, ⟨n, hn, hk⟩, fun d hpd hdq => h4 d ((List.mem_inits d q).2 hdq) hpd⟩
    · rintro ⟨h1, h2, ⟨n, hn, hk⟩, h4⟩
      exact ⟨h1, h2, ⟨n, hn, hk⟩, fun d hd hpd => h4 d hpd ((List.mem_inits d q).1 hd)⟩

/-- The state remembered for a source directory and for a source file. -/
abbrev dirState (a : Attr) : PathState := pathStateFromInfo .dir (a.info .dir)
abbrev fileState (f : File) : PathState := pathStateFromInfo .file f.info

/-- The visit of `q`, under the umask `U`. With `rm`, the backup of a special file
is removed. -/
inductive Touch (S : Tree) (T : Set Time) (U : Perm) (rm : Bool) (q : Path) (t : Tree) (m : StateMap) :
    Tree → StateMap → Prop
  | dirKnown {a : Attr} (hS : S.get q = some (.dir a)) (hm : m.lookup q = some (dirState a)) :
    Touch S T U rm q t m t m
  | dirMade {a : Attr} {t' : Tree} (hS : S.get q = some (.dir a))
    (h : Tree.MadeDirs T (a.perm &&& ~~~U) q t t') : Touch S T U rm q t m t' (m.insert q (dirState a))
  | fileKnown {f : File} (hS : S.get q = some (.file f)) (hm : m.lookup q = some (fileState f)) :
    Touch S T U rm q t m t m
  | fileMatched {f : File} (hS : S.get q = some (.file f)) (h : Reports t q f.info) :
    Touch S T U rm q t m t (m.insert q (fileState f))
  | fileCopied {f : File} {t' : Tree} (hS : S.get q = some (.file f))
    (h : Copied T (0o755 &&& ~~~U) q f t t') (hno : ¬ Reports t q f.info) :
    Touch S T U rm q t m t' (m.insert q (fileState f))
  | specialKept {a : Attr} (hS : S.get q = some (.special a)) (hrm : rm = false) :
    Touch S T U rm q t m t m
  | specialRemoved {a : Attr} {t' : Tree} (hS : S.get q = some (.special a)) (hrm : rm = true)
    (h : Tree.Pruned T q t t') : Touch S T U rm q t m t' (StateMap.prune m q)

/-- There is no room in `t` for what the visit of `q` has to do. -/
inductive Stuck (S : Tree) (rm : Bool) (q : Path) (t : Tree) : Prop
  | dir {a : Attr} {d : Path} (hS : S.get q = some (.dir a)) (hd : d <+: q) (hh : t.Has d)
    (hn : ¬ t.IsDir d)
  | overDir {f : File} (hS : S.get q = some (.file f)) (hd : t.IsDir q)
  | file {f : File} {d : Path} (hS : S.get q = some (.file f)) (hd : d <+: q.dropLast) (hh : t.Has d)
    (hn : ¬ t.IsDir d)
  | special {a : Attr} (hS : S.get q = some (.special a)) (hrm : rm = true)
    (hm : t.missing q ≠ .ENOENT)

/-- Visits from `p` on, in the order of a walk. -/
inductive Pass (S : Tree) (ex : Path → Bool) (T : Set Time) (U : Perm) (rm : Bool) (p : Path) (t₀ : Tree)
    (m₀ : StateMap) : List Path → Tree → StateMap → Prop
  | nil : Pass S ex T U rm p t₀ m₀ [] t₀ m₀
  | snoc {l : List Path} {q : Path} {t t' : Tree} {m m' : StateMap}
    (done : Pass S ex T U rm p t₀ m₀ l t m) (reach : Reach S ex p q)
    (above : ∀ d, p <+: d → d <+: q → d ≠ q → d ≠ [] → d ∈ l) (fresh : ∀ x ∈ l, ¬ q <+: x)
    (touch : Touch S T U rm q t m t' m') : Pass S ex T U rm p t₀ m₀ (l ++ [q]) t' m'

theorem Pass.reach {S : Tree} {ex : Path → Bool} {T : Set Time} {U : Perm} {rm : Bool} {p : Path} {t₀ t : Tree}
    {m₀ m : StateMap} {l : List Path} (h : Pass S ex T U rm p t₀ m₀ l t m) {x : Path} (hx : x ∈ l) :
    Reach S ex p x := by
  induction h with
  | nil => cases hx
  | snoc _ hq _ _ _ ih =>
    rcases List.mem_append.1 hx with hx | hx
    · exact ih hx
    · rw [List.mem_singleton] at hx
      exact hx ▸ hq

/-- What happens to a special file. -/
def onSpecial {D : Type} [Disk D] (rm : Bool) : Path → SyncM D Unit :=
  if rm then removeSpecial else fun _ => pure ()

/-- `r` with the given `seen` set. -/
abbrev Run.seeing (r : Run Trees) (l : List Path) : Run Trees := { r with seen := l }

section

variable {r : Run Trees} {q : Path} {k : Kind} {rm : Bool}

/-- `q` is to be mirrored if it is visited at all. -/
def Wanted (S : Tree) (ex : Path → Bool) (q : Path) : Prop :=
  q ≠ [] ∧ ex q = false ∧ S.kind q ≠ some .symlink

instance (S : Tree) (ex : Path → Bool) (q : Path) : Decidable (Wanted S ex q) :=
  inferInstanceAs (Decidable (_ ∧ _ ∧ _))

/-- A visit that ends well, and one that gets stuck, as moves from `r`. -/
abbrev Touched (rm : Bool) (q : Path) (r r' : Run Trees) : Prop :=
  ∃ t n m, r' = r.move t n m ∧ Touch r.src r.times r.world.umask rm q r.dst r.state t m

abbrev GotStuck (rm : Bool) (q : Path) (r r' : Run Trees) : Prop :=
  Stuck r.src rm q r.dst ∧ ∃ t n, Grown r.dst t ∧ r' = r.move t n r.state

theorem wp_touch_dir (hr : r.Quiet) {a : Attr} (hg : r.src.get q = some (.dir a)) :
    WP (syncDir q (a.info .dir)) (fun _ => Touched rm q r) (fun _ => GotStuck rm q r) r := by
  refine wp_syncDir hr (fun hm => ?_) (fun t ht => ?_) ?_
  · exact ⟨r.dst, 0, r.state, rfl, .dirKnown hg hm⟩
  · exact ⟨t, 1, _, rfl, .dirMade hg ht⟩
  · rintro e ⟨d, hd, hh, hn⟩
    exact ⟨.dir hg hd hh hn, r.dst, 0, .refl _, rfl⟩

theorem wp_touch_file (hr : r.Quiet) (hq : q ≠ []) {f : File} (hg : r.src.get q = some (.file f)) :
    WP (copyRel q f.info) (fun _ => Touched rm q r) (fun _ => GotStuck rm q r) r := by
  refine wp_copyRel hr hq hg (fun hm => ?_) (fun hm => ?_) (fun t hno ht => ?_) ?_
  · exact ⟨r.dst, 0, r.state, rfl, .fileKnown hg hm⟩
  · exact ⟨r.dst, 0, _, rfl, .fileMatched hg hm⟩
  · exact ⟨t, 3, _, rfl, .fileCopied hg ht hno⟩
  · rintro e t n ht (hd | ⟨d, hd, hh, hn⟩)
    · exact ⟨.overDir hg hd, t, n, ht, rfl⟩
    · exact ⟨.file hg hd hh hn, t, n, ht, rfl⟩

theorem wp_touch_special (hr : r.Quiet) (hq : q ≠ []) {a : Attr}
    (hg : r.src.get q = some (.special a)) :
    WP (onSpecial rm q) (fun _ => Touched rm q r) (fun _ => GotStuck rm q r) r := by
  cases rm with
  | false => exact ⟨r.dst, 0, r.state, rfl, .specialKept hg rfl⟩
  | true =>
    simp only [onSpecial, if_true, removeSpecial, orFail_joinUnder, WP.bind_iff, WP.pure_iff]
    refine wp_removeBackupPath hr hq (fun t ht => ?_) fun e hm _ => ?_
    · exact ⟨t, 1, _, rfl, .specialRemoved hg rfl ht⟩
    · exact ⟨.special hg rfl hm, r.dst, 0, .refl _, rfl⟩

/-- One call of the callback of a source walk, by what is found at `q`. -/
theorem wp_mirrorFn_cases {special : Path → SyncM Trees Unit} {Q : Ctl → Run Trees → Prop}
    {E : Err → Run Trees → Prop} (hr : r.Quiet) (hk : r.src.kind q = some k)
    (hskip : ¬ Wanted r.src r.syncer.excluder.excluded q →
      Q (if k = .dir ∧ r.syncer.excluder.excluded q = true then .skipDir else .next) r)
    (hdir : Wanted r.src r.syncer.excluder.excluded q → ∀ a, r.src.get q = some (.dir a) →
      WP (syncDir q (a.info .dir)) (fun _ => Q .next) E (r.seeing (r.seen ++ [q])))
    (hfile : Wanted r.src r.syncer.excluder.excluded q → ∀ f, r.src.get q = some (.file f) →
      WP (copyRel q f.info) (fun _ => Q .next) E (r.seeing (r.seen ++ [q])))
    (hspecial : Wanted r.src r.syncer.excluder.excluded q → ∀ a, r.src.get q = some (.special a) →
      WP (special q) (fun _ => Q .next) E (r.seeing (r.seen ++ [q]))) :
    WP (mirrorFn special q (.ok k)) Q E r := by
  obtain ⟨node, hg, rfl⟩ := Option.map_eq_some_iff.1 hk
  simp only [mirrorFn, WP.bind_iff, wp_liftSys_iff]
  refine WP.of_ok (pollCtx_run hr.plan) ?_
  by_cases hroot : q = []
  · subst hroot
    simp only [if_true, WP.pure_iff]
    have hout := hskip fun h => h.1 rfl
    simp only [Excluder.excluded_root, Bool.false_eq_true, and_false, if_false] at hout
    exact hout
  simp only [hroot, if_false, getSyncer, WP.bind_iff, WP.get_iff, WP.pure_iff]
  cases hex : r.syncer.excluder.excluded q with
  | true =>
    have hno : ¬ Wanted r.src r.syncer.excluder.excluded q := fun h => by simp [h.2.1] at hex
    have hout := hskip hno
    simp only [hex, and_true] at hout
    simp only [if_true, WP.pure_iff]
    exact hout
  | false =>
    simp only [Bool.false_eq_true, if_false, WP.bind_iff, wp_liftSys_iff]
    refine WP.of_ok (lstat_src_ok hr.plan (.inl hroot) hg) ?_
    have hwanted : node.kind ≠ .symlink → Wanted r.src r.syncer.excluder.excluded q := fun hn =>
      ⟨hroot, hex, by rw [hk]; simpa using hn⟩
    cases node with
    | symlink a =>
      have hno : ¬ Wanted r.src r.syncer.excluder.excluded q := fun h => h.2.2 hk
      exact hskip hno
    | dir a =>
      change WP (do addSeen q; syncDir q (a.info .dir); pure Ctl.next) _ _ _
      simp only [WP.bind_iff, addSeen, WP.modify_iff, WP.pure_iff]
      exact hdir (hwanted (by simp)) a hg
    | file f =>
      change WP (do addSeen q; copyRel q f.info; pure Ctl.next) _ _ _
      simp only [WP.bind_iff, addSeen, WP.modify_iff, WP.pure_iff]
      exact hfile (hwanted (by simp)) f hg
    | special a =>
      change WP (do addSeen q; special q; pure Ctl.next) _ _ _
      simp only [WP.bind_iff, addSeen, WP.modify_iff, WP.pure_iff]
      exact hspecial (hwanted (by simp)) a hg

/-- One call of the callback of a source walk. -/
theorem wp_mirrorFn (hr : r.Quiet) (hk : r.src.kind q = some k) :
    WP (mirrorFn (onSpecial rm) q (.ok k))
      (fun c r' => c = (if k = .dir ∧ r.syncer.excluder.excluded q = true then .skipDir else .next) ∧
        ((¬ Wanted r.src r.syncer.excluder.excluded q ∧ r' = r) ∨
          (Wanted r.src r.syncer.excluder.excluded q ∧ Touched rm q (r.seeing (r.seen ++ [q])) r')))
      (fun _ r' => Wanted r.src r.syncer.excluder.excluded q ∧
        GotStuck rm q (r.seeing (r.seen ++ [q])) r') r := by
  have hr' : (r.seeing (r.seen ++ [q])).Quiet := ⟨hr.plan, hr.tmp, hr.live⟩
  have hnext : Wanted r.src r.syncer.excluder.excluded q →
      Ctl.next = if k = .dir ∧ r.syncer.excluder.excluded q = true then .skipDir else .next := by
    intro hw
    simp [hw.2.1]
  refine wp_mirrorFn_cases hr hk (fun hno => ⟨rfl, .inl ⟨hno, rfl⟩⟩) (fun hw a hg => ?_)
    (fun hw f hg => ?_) fun hw a hg => ?_
  · exact (wp_touch_dir hr' hg).mono (fun _ _ h => ⟨hnext hw, .inr ⟨hw, h⟩⟩) fun _ _ h => ⟨hw, h⟩
  · exact (wp_touch_file hr' hw.1 hg).mono (fun _ _ h => ⟨hnext hw, .inr ⟨hw, h⟩⟩) fun _ _ h => ⟨hw, h⟩
  · exact (wp_touch_special hr' hw.1 hg).mono (fun _ _ h => ⟨hnext hw, .inr ⟨hw, h⟩⟩)
      fun _ _ h => ⟨hw, h⟩

end

section

variable {r : Run Trees} {p : Path} {rm : Bool} {E : Err → Run Trees → Prop}
  {l : List (Path × Except Err Kind)} {v : Path × Except Err Kind}
  {Q : List Path → Run Trees → Prop}

/-- The runs a source walk passes through: only the destination, the state map
and `seen` have changed. -/
def Moved (r r' : Run Trees) : Prop := ∃ t n m l, r' = (r.move t n m).seeing l

theorem Moved.quiet {r r' : Run Trees} (h : Moved r r') (hr : r.Quiet) : r'.Quiet := by
  obtain ⟨t, n, m, l, rfl⟩ := h
  exact ⟨hr.plan, hr.tmp, hr.live⟩

theorem steady_mirrorFn (rm : Bool) (hr : r.Quiet) : Steady (mirrorFn (onSpecial rm)) .src r.src
    (fun q => !r.syncer.excluder.excluded q) (Moved r) where
  list := by
    rintro s q ⟨t, n, m, l, rfl⟩ hd
    exact liftSys_ok (s := (r.move t n m).seeing l) (readDir_src_run (w := r.world.setDst t n) hr.plan hd)
  call := by
    intro s q k hs hk
    have hq := hs.quiet hr
    obtain ⟨t, n, m, l, rfl⟩ := hs
    refine (wp_mirrorFn hq hk).mono ?_ fun _ _ _ => trivial
    rintro c r' ⟨rfl, hr'⟩
    refine ⟨?_, by simp only [Bool.not_eq_false']; rfl⟩
    rcases hr' with ⟨-, rfl⟩ | ⟨-, t', n', m', rfl, -⟩
    · exact ⟨t, n, m, l, rfl⟩
    · exact ⟨t', n + n', m', l ++ [q], by simp [Run.move, World.setDst_setDst]⟩
  report := fun s q e => ⟨e, s, rfl⟩

/-- The paths to be mirrored among those visited so far. -/
def wantedOf (S : Tree) (ex : Path → Bool) (l : List (Path × Except Err Kind)) : List Path :=
  (l.map Prod.fst).filter fun q => decide (Wanted S ex q)

/-- A source walk from `p` that reached everything. -/
def FullPass (S : Tree) (rm : Bool) (p : Path) (r : Run Trees) (seen : List Path) (t : Tree)
    (m : StateMap) : Prop :=
  Pass S r.syncer.excluder.excluded r.times r.world.umask rm p r.dst r.state seen t m ∧
    ∀ q, q ∈ seen ↔ Reach S r.syncer.excluder.excluded p q

/-- How a source walk that does not finish ends: there is nothing at `p`, or after
some visits the next one got stuck or a directory was too deep to be listed. -/
def Broken (S : Tree) (rm : Bool) (p : Path) (r r' : Run Trees) : Prop :=
  ∃ done t m t' n l, r' = (r.move t' n m).seeing l ∧
    Pass S r.syncer.excluder.excluded r.times r.world.umask rm p r.dst r.state done t m ∧ Grown t t' ∧
    (¬ S.Has p ∨ (∃ d, S.IsDir d ∧ p <+: d ∧ d.length = p.length + r.world.pathMax) ∨
      ∃ q, Reach S r.syncer.excluder.excluded p q ∧ Stuck S rm q t ∧
        (∀ d, p <+: d → d <+: q → d ≠ q → d ≠ [] → d ∈ done) ∧ ∀ x ∈ done, ¬ q <+: x)

section Order

variable {S : Tree} {ex : Path → Bool} {fuel : Nat}

theorem wantedOf_snoc (h : Wanted S ex v.1) :
    wantedOf S ex (l ++ [v]) = wantedOf S ex l ++ [v.1] := by
  simp [wantedOf, h]

theorem wantedOf_snoc_of_not (h : ¬ Wanted S ex v.1) :
    wantedOf S ex (l ++ [v]) = wantedOf S ex l := by
  simp [wantedOf, h]

theorem mem_wantedOf {x : Path} : x ∈ wantedOf S ex l ↔ (∃ v ∈ l, v.1 = x) ∧ Wanted S ex x := by
  simp [wantedOf]

theorem reach_of_visit (hp : S.Has p) {k : Kind}
    (hv : v ∈ visits S (fun q => !ex q) fuel p) (hk : S.kind v.1 = some k) (hw : Wanted S ex v.1) :
    Reach S ex p v.1 := by
  obtain ⟨hpre, hent, -⟩ := of_mem_visits fuel p hp v hv
  obtain ⟨n, hn, rfl⟩ := Option.map_eq_some_iff.1 hk
  refine ⟨hpre, hw.1, ⟨n, hn, fun h => hw.2.2 (by rw [hk, h])⟩, fun d hpd hdv => ?_⟩
  by_cases he : d = v.1
  · exact he ▸ hw.2.1
  · simpa using hent d hpd hdv he

theorem wantedOf_above {q : Path} {k : Kind} {done rest : List (Path × Except Err Kind)} (hp : S.Has p)
    (hl : visits S (fun q => !ex q) fuel p = done ++ (q, .ok k) :: rest) (hk : S.kind q = some k)
    (hw : Wanted S ex q) :
    ∀ d, p <+: d → d <+: q → d ≠ q → d ≠ [] → d ∈ wantedOf S ex done := by
  intro d hpd hdq hne hd0
  have hv : (q, .ok k) ∈ visits S (fun q => !ex q) fuel p := by
    rw [hl]
    simp
  obtain ⟨k', hk'⟩ := above_of_visit hp hl hpd hdq hne
  have hreach := reach_of_visit hp hv hk hw
  have hdir := Tree.isDir_of_above (Tree.has_of_kind hk) hdq hne
  refine mem_wantedOf.2 ⟨⟨_, hk', rfl⟩, hd0, hreach.kept d hpd hdq, ?_⟩
  rw [Tree.IsDir] at hdir
  rw [hdir]
  simp

/-- Nothing at or below a path has been visited before it. -/
theorem wantedOf_fresh {q : Path} {k : Kind} {done rest : List (Path × Except Err Kind)} (hp : S.Has p)
    (hl : visits S (fun q => !ex q) fuel p = done ++ (q, .ok k) :: rest) :
    ∀ x ∈ wantedOf S ex done, ¬ q <+: x := by
  intro x hx
  obtain ⟨⟨v, hv, rfl⟩, -⟩ := mem_wantedOf.1 hx
  exact fresh_of_visit hp hl hv

end Order

theorem wp_mirrorWalk_iff (rm : Bool) (hr : r.Quiet) (hlink : p ≠ [] ∨ r.world.disk.src.link = none)
    (hp : r.src.Has p) :
    WP (mirrorWalk (onSpecial rm) p) Q E r ↔
      WP (visitAll (mirrorFn (onSpecial rm))
        (visits r.src (fun q => !r.syncer.excluder.excluded q) r.world.pathMax p))
        (fun _ r' => Q r'.seen r') E (r.seeing []) := by
  obtain ⟨node, hg⟩ := Tree.has_iff.1 hp
  have hsteady := steady_mirrorFn rm hr
  have hstart : Moved r (r.seeing []) := ⟨r.dst, 0, r.state, [], rfl⟩
  have hkind : r.src.kind p = some node.info.kind := Tree.kind_of_get hg
  simp only [mirrorWalk, WP.bind_iff, WP.modify_iff, WP.get_iff, WP.pure_iff]
  rw [hsteady.wp_walk hstart hkind (liftSys_ok (attempt_ok (lstat_src_ok hr.plan hlink hg)))]
  rfl

/-- **The source walk.** -/
theorem wp_mirrorWalk (rm : Bool) (hr : r.Quiet) (hlink : p ≠ [] ∨ r.world.disk.src.link = none)
    (hp : r.src.Has p) :
    WP (mirrorWalk (onSpecial rm) p)
      (fun seen r' => ∃ t n m, r' = (r.move t n m).seeing seen ∧ FullPass r.src rm p r seen t m)
      (fun _ => Broken r.src rm p r) r := by
  rw [wp_mirrorWalk_iff rm hr hlink hp]
  refine (WP.forM (fun done r' => (∀ v ∈ done, ∀ e, v.2 ≠ .error e) ∧
    ∃ t n m, r' = (r.move t n m).seeing (wantedOf r.src r.syncer.excluder.excluded done) ∧
      Pass r.src r.syncer.excluder.excluded r.times r.world.umask rm p r.dst r.state
        (wantedOf r.src r.syncer.excluder.excluded done) t m) ?_ ?_).mono ?_ fun _ _ h => h
  · exact ⟨by simp, r.dst, 0, r.state, rfl, .nil⟩
  · rintro done ⟨q, entry⟩ rest _ hl ⟨hok, t, n, m, rfl, hpass⟩
    have hl' : visits r.src (fun q => !r.syncer.excluder.excluded q) r.world.pathMax p =
      done ++ (q, entry) :: rest := hl
    have hv : (q, entry) ∈ visits r.src (fun q => !r.syncer.excluder.excluded q) r.world.pathMax p := by
      rw [hl']
      simp
    simp only [WP.bind_iff, WP.pure_iff]
    rcases next_visit hp hl' with ⟨k, rfl, hvk⟩ | ⟨rfl, hd, hlen⟩
    · have hq' : ((r.move t n m).seeing (wantedOf r.src r.syncer.excluder.excluded done)).Quiet :=
        ⟨hr.plan, hr.tmp, hr.live⟩
      have hok' : ∀ v ∈ done ++ [(q, .ok k)], ∀ e, v.2 ≠ .error e := by
        intro v hv e
        rcases List.mem_append.1 hv with hv | hv
        · exact hok v hv e
        · rw [List.mem_singleton.1 hv]
          simp
      have habove := wantedOf_above hp hl' hvk
      have hfresh := wantedOf_fresh hp hl'
      refine (wp_mirrorFn hq' hvk).mono ?_ ?_
      · rintro c r' ⟨-, ⟨hw, rfl⟩ | ⟨hw, t', n', m', rfl, ht⟩⟩
        · have hsame : wantedOf r.src r.syncer.excluder.excluded (done ++ [(q, .ok k)]) = _ :=
            wantedOf_snoc_of_not hw
          exact ⟨hok', t, n, m, by rw [hsame], hsame ▸ hpass⟩
        · have hnext : wantedOf r.src r.syncer.excluder.excluded (done ++ [(q, .ok k)]) = _ :=
            wantedOf_snoc hw
          refine ⟨hok', t', n + n', m', ?_, ?_⟩
          · rw [hnext]
            simp [Run.move, World.setDst_setDst]
          · rw [hnext]
            exact hpass.snoc (reach_of_visit hp hv hvk hw)
              (habove hw) hfresh ht
      · rintro e r' ⟨hw, hst, t', n', hg', rfl⟩
        refine ⟨_, t, m, t', n + n', wantedOf r.src r.syncer.excluder.excluded done ++ [q], ?_, hpass, hg',
          .inr (.inr ⟨q, reach_of_visit hp hv hvk hw, hst, habove hw, hfresh⟩)⟩
        simp [Run.move, World.setDst_setDst]
    · exact ⟨_, t, m, t, n, _, rfl, hpass, .refl t,
        .inr (.inl ⟨q, hd, (of_mem_visits _ p hp _ hv).1, hlen⟩)⟩
  · rintro _ r' ⟨hok, t, n, m, rfl, hpass⟩
    refine ⟨t, n, m, rfl, hpass, fun q => ⟨fun hq => hpass.reach hq, fun hq => ?_⟩⟩
    obtain ⟨node', hn, hns⟩ := hq.node
    obtain ⟨k, hk⟩ := mem_visits r.world.pathMax p q hq.below (Tree.has_of_get hn)
      (fun d h1 h2 _ => by simp [hq.kept d h1 h2]) hok
    refine mem_wantedOf.2 ⟨⟨_, hk, rfl⟩, hq.ne_root, hq.kept q hq.below List.prefix_rfl, ?_⟩
    rw [Tree.kind, hn, Option.map_some]
    exact fun h => hns (Option.some.inj h)

/-! ## The walk from the root -/

/-- What a walk from the source root meets: the link, if the root path is one. -/
def Run.walked (r : Run Trees) : Tree :=
  match r.world.disk.src.link with
  | some a => .leaf (.symlink a)
  | none => r.src

theorem Run.walked_eq_src (h : r.world.disk.src.link = none) : r.walked = r.src := by
  rw [Run.walked, h]

theorem not_reach_link {ex : Path → Bool} {a : Attr} {q : Path} :
    ¬ Reach (Tree.leaf (.symlink a)) ex [] q := by
  intro h
  obtain ⟨n, hn, -⟩ := h.node
  rw [Tree.get_leaf, if_neg h.ne_root] at hn
  cases hn

/-- A walk of a root that is a link meets the link and nothing else. -/
theorem wp_mirrorWalk_link (hr : r.Quiet) {a : Attr} (hlink : r.world.disk.src.link = some a)
    (h : Q [] (r.seeing [])) :
    WP (mirrorWalk (fun _ => pure ()) []) Q E r := by
  have hlstat := lstat_src_link hr.plan hlink
  simp only [mirrorWalk, WP.bind_iff, WP.modify_iff, WP.get_iff, WP.pure_iff]
  rw [wp_walk_ok (liftSys_ok (s := r.seeing []) (attempt_ok hlstat))]
  refine wp_walkDir_leaf (by simp [Attr.info]) ?_
  simp only [mirrorFn, WP.bind_iff, wp_liftSys_iff]
  exact WP.of_ok (pollCtx_run hr.plan) h

/-- A walk of a root that is missing fails at once. -/
theorem wp_mirrorWalk_missing (hr : r.Quiet) (hlink : r.world.disk.src.link = none)
    (hp : ¬ r.src.Has [])
    (h : ∀ e, E e (r.seeing [])) : WP (mirrorWalk (fun _ => pure ()) []) Q E r := by
  have hlstat := lstat_src_error hr.plan (.inr hlink) (Tree.not_has_iff.1 hp)
  simp only [mirrorWalk, WP.bind_iff, WP.modify_iff, WP.get_iff, WP.pure_iff]
  rw [wp_walk_error (liftSys_ok (s := r.seeing []) (attempt_error hlstat))]
  exact h _

/-- **The source walk from the root**, which may be missing or a link. -/
theorem wp_mirrorWalk_root (hr : r.Quiet) :
    WP (mirrorWalk (fun _ => pure ()) [])
      (fun seen r' => ∃ t n m, r' = (r.move t n m).seeing seen ∧ FullPass r.walked false [] r seen t m)
      (fun _ => Broken r.walked false [] r) r := by
  cases hlink : r.world.disk.src.link with
  | some a =>
    refine wp_mirrorWalk_link hr hlink ⟨r.dst, 0, r.state, rfl, .nil, fun q => ?_⟩
    rw [Run.walked, hlink]
    exact ⟨fun hq => absurd hq List.not_mem_nil, fun hq => absurd hq not_reach_link⟩
  | none =>
    rw [Run.walked_eq_src hlink]
    by_cases hp : r.src.Has []
    · exact wp_mirrorWalk false hr (.inr hlink) hp
    · apply wp_mirrorWalk_missing hr hlink hp
      intro e
      exact ⟨[], r.dst, r.state, r.dst, 0, [], rfl, .nil, .refl _, .inl hp⟩

end

end Dockerset.Netfin

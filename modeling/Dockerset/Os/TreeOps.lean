import Dockerset.Os.Tree

/-!
# System calls on a file tree

The calls the programs make below a root, on a tree without hidden
indirections: a symbolic link is an entry of its own and nothing lies behind
it. Each call that changes the tree stamps the directory whose entries change
with the time of the call.

What the calls do is stated on two views of the tree. `shape` forgets the size
and the modification time of directories, so that stamping is invisible in it:
`mkdirAll`, `install` and `removeAll` are then plain updates. `Stamped` keeps
what was forgotten: a directory of the new tree is either stamped with the time
of the call or unchanged with the same entries in it.
-/

namespace Dockerset.Os
open Go

/-- The error numbers of the modelled calls. -/
inductive Errno where
  | ENOENT
  | ENOTDIR
  | EISDIR
  | EEXIST
  | ENOTEMPTY
  | ELOOP
  | ENODEV
  | ENAMETOOLONG
  | EIO
deriving DecidableEq

def newDirSize : Nat := 4096

/-- A node without a directory's size and modification time. -/
def Node.shape : Node → Node
  | .dir a => .dir { a with size := 0, mtime := 0 }
  | n => n

@[simp] theorem Node.kind_shape (n : Node) : n.shape.kind = n.kind := by cases n <;> rfl

theorem Node.shape_eq_self {n : Node} (h : n.kind ≠ .dir) : n.shape = n := by
  cases n with
  | dir a => exact absurd rfl h
  | _ => rfl

namespace Tree

def shape (t : Tree) (p : Path) : Option Node := (t.get p).map Node.shape

variable {t t' : Tree} {p q : Path} {n : Node} {f : File} {T : Set Time} {now : Time} {perm : Perm}
  {e : Errno}

theorem kind_eq_shape (t : Tree) (p : Path) : t.kind p = (t.shape p).map Node.kind := by
  simp [kind, shape, Function.comp_def]

theorem has_iff_shape : t.Has p ↔ (t.shape p).isSome = true := by
  simp [Has, shape]

theorem shape_eq_none : t.shape p = none ↔ t.get p = none := by
  simp [shape]

theorem shape_ne_none : t.shape p ≠ none ↔ t.Has p := by
  rw [ne_eq, shape_eq_none, ← not_has_iff, not_not]

theorem get_file_iff_shape : t.get p = some (.file f) ↔ t.shape p = some (.file f) := by
  simp only [shape, Option.map_eq_some_iff]
  constructor
  · intro h
    exact ⟨_, h, rfl⟩
  · rintro ⟨n, h, hn⟩
    cases n with
    | file g => cases hn; exact h
    | _ => simp [Node.shape] at hn

/-- Anything but a directory is determined by its shape. -/
theorem get_eq_of_shape (hs : t'.shape p = t.shape p)
    (hg : t.get p = some n) (hn : n.kind ≠ .dir) : t'.get p = some n := by
  simp only [shape, hg, Option.map_some, Option.map_eq_some_iff] at hs
  obtain ⟨n', hg', hn'⟩ := hs
  have hk : n'.kind ≠ .dir := by rwa [← Node.kind_shape, hn', Node.kind_shape]
  rw [hg', ← Node.shape_eq_self hk, hn', Node.shape_eq_self hn]

theorem get_dir_of_shape {a : Attr} (hs : t.shape p = some (.dir a)) :
    ∃ b, t.get p = some (.dir b) ∧ b.perm = a.perm := by
  obtain ⟨n, hn, hshape⟩ := Option.map_eq_some_iff.1 hs
  cases n with
  | dir b =>
    refine ⟨b, hn, ?_⟩
    cases hshape
    rfl
  | _ => cases hshape

theorem ne_root_of_file (hroot : t.IsDir []) (hf : t.get p = some (.file f)) : p ≠ [] := by
  rintro rfl
  rw [IsDir, kind_of_get hf] at hroot
  cases hroot

theorem isDir_iff_shape : t.IsDir p ↔ (t.shape p).map Node.kind = some .dir := by
  rw [IsDir, kind_eq_shape]

@[simp] theorem shape_stamp (t : Tree) (p : Path) (now : Time) : (t.stamp p now).shape = t.shape := by
  funext q
  simp only [shape, get_stamp]
  split
  · cases t.get q with
    | none => rfl
    | some n => cases n <;> rfl
  · rfl

theorem shape_put (h : t.Admits p n) (q : Path) :
    (t.put p n).shape q = if q = p then some n.shape else t.shape q := by
  simp only [shape, get_put h]
  split <;> rfl

theorem shape_prune (t : Tree) (p q : Path) :
    (t.prune p).shape q = if p <+: q then none else t.shape q := by
  simp only [shape, get_prune]
  split <;> rfl

/-- Between `t` and `t'` directories were stamped with a time in `T` wherever
their entries changed. -/
def Stamped (T : Set Time) (t t' : Tree) : Prop :=
  ∀ p a, t'.get p = some (.dir a) →
    a.mtime ∈ T ∨ (t.get p = some (.dir a) ∧ ∀ x, t'.Has (p ++ [x]) ↔ t.Has (p ++ [x]))

theorem Stamped.refl (T : Set Time) (t : Tree) : Stamped T t t :=
  fun _ _ h => .inr ⟨h, fun _ => Iff.rfl⟩

theorem has_stamp : (t.stamp p now).Has q ↔ t.Has q := by
  rw [has_iff_shape, has_iff_shape, shape_stamp]

theorem Stamped.trans {u v : Tree} (h : Stamped T t u) (h' : Stamped T u v) : Stamped T t v := by
  intro p a hp
  rcases h' p a hp with ha | ⟨ha, hx⟩
  · exact .inl ha
  · rcases h p a ha with hb | ⟨hb, hy⟩
    · exact .inl hb
    · exact .inr ⟨hb, fun x => (hx x).trans (hy x)⟩

/-- An update that changes entries only directly in the directory that is then
stamped, or below entries that it removes, is `Stamped`. -/
theorem Stamped.of_stamp (hT : now ∈ T) {u : Tree} {d : Path}
    (hget : ∀ p a, u.get p = some (.dir a) → p ≠ d → a.mtime ∈ T ∨
      (t.get p = some (.dir a) ∧ ∀ x, u.Has (p ++ [x]) ↔ t.Has (p ++ [x]))) :
    Stamped T t (u.stamp d now) := by
  intro p a hp
  rw [get_stamp] at hp
  split at hp
  · cases hu : u.get p with
    | none => simp [hu] at hp
    | some n =>
      rw [hu] at hp
      cases n with
      | dir b =>
        simp only [Option.map_some, Option.some.injEq, Node.dir.injEq] at hp
        exact .inl (by rw [← hp]; exact hT)
      | _ => simp at hp
  · next hne =>
    rcases hget p a hp hne with h | ⟨h, hx⟩
    · exact .inl h
    · exact .inr ⟨h, fun x => by rw [has_stamp, hx x]⟩

theorem Stamped.stamp (hT : now ∈ T) (t : Tree) (p : Path) : Stamped T t (t.stamp p now) :=
  .of_stamp hT fun _ _ h _ => .inr ⟨h, fun _ => Iff.rfl⟩

/-- Putting an entry and stamping its directory. -/
theorem Stamped.put (hT : now ∈ T) (h : t.Admits p n)
    (hn : ∀ a, n = .dir a → a.mtime ∈ T) : Stamped T t ((t.put p n).stamp p.dropLast now) := by
  apply Stamped.of_stamp hT
  intro q a hq hne
  rw [get_put h] at hq
  split at hq
  · cases hq
    exact .inl (hn a rfl)
  · refine .inr ⟨hq, fun x => ?_⟩
    have hx : q ++ [x] ≠ p := by
      rintro rfl
      exact hne (by simp)
    rw [has_iff, has_iff, get_put h, if_neg hx]

/-- Removing a subtree and stamping the directory above it. -/
theorem Stamped.prune (hT : now ∈ T) (t : Tree) (p : Path) :
    Stamped T t ((t.prune p).stamp p.dropLast now) := by
  apply Stamped.of_stamp hT
  intro q a hq hne
  rw [get_prune] at hq
  split at hq
  · cases hq
  · next hpq =>
    refine .inr ⟨hq, fun x => ?_⟩
    have hx : ¬ p <+: q ++ [x] := by
      intro hp
      rcases List.prefix_concat_iff.1 hp with rfl | hp
      · exact hne (by simp)
      · exact hpq hp
    rw [has_iff, has_iff, get_prune, if_neg hx]

theorem get_stamp_of_ne (h : q ≠ p) : (t.stamp p now).get q = t.get q := by
  rw [get_stamp, if_neg h]

/-! ## Looking -/

/-- The error of a call on a path that has no entry. -/
def missing (t : Tree) (p : Path) : Errno :=
  if p.inits.any fun q => t.kind q == some .file || t.kind q == some .special then .ENOTDIR
  else .ENOENT

def lstat (t : Tree) (p : Path) : Except Errno Info :=
  match t.get p with
  | some n => .ok n.info
  | none => .error (t.missing p)

theorem lstat_of_get (h : t.get p = some n) : t.lstat p = .ok n.info := by
  simp only [lstat, h]

theorem kind_of_lstat {i : Info} (h : t.lstat p = .ok i) : t.kind p = some i.kind := by
  cases hg : t.get p with
  | none =>
    simp only [lstat, hg] at h
    cases h
  | some n =>
    rw [lstat_of_get hg] at h
    cases h
    exact kind_of_get hg

theorem lstat_of_none (h : t.get p = none) : t.lstat p = .error (t.missing p) := by
  simp only [lstat, h]

theorem missing_eq_enotdir :
    t.missing p = .ENOTDIR ↔ ∃ q, q <+: p ∧ (t.kind q = some .file ∨ t.kind q = some .special) := by
  simp only [missing]
  split
  · next h =>
    simp only [true_iff]
    obtain ⟨q, hq, hk⟩ := List.any_eq_true.1 h
    exact ⟨q, (List.mem_inits q p).1 hq, by simpa using hk⟩
  · next h =>
    simp only [reduceCtorEq, false_iff]
    rintro ⟨q, hq, hk⟩
    exact h (List.any_eq_true.2 ⟨q, (List.mem_inits q p).2 hq, by simpa using hk⟩)

theorem missing_eq_enoent (h : t.missing p ≠ .ENOTDIR) : t.missing p = .ENOENT := by
  unfold missing at h ⊢
  split
  · next hc => rw [if_pos hc] at h; exact absurd rfl h
  · rfl

theorem missing_eq : t.missing p = .ENOTDIR ∨ t.missing p = .ENOENT := by
  by_cases h : t.missing p = .ENOTDIR
  · exact .inl h
  · exact .inr (missing_eq_enoent h)

theorem missing_enotdir_mono (h : t.missing p = .ENOTDIR) (hpq : p <+: q) :
    t.missing q = .ENOTDIR := by
  obtain ⟨x, hx, hk⟩ := missing_eq_enotdir.1 h
  exact missing_eq_enotdir.2 ⟨x, hx.trans hpq, hk⟩

/-- Nothing is behind a link, and the calls that meet one say so. -/
theorem missing_below_symlink (hk : t.kind p = some .symlink)
    (hpq : p <+: q) (hne : p ≠ q) : t.get q = none ∧ t.missing q = .ENOENT := by
  refine ⟨not_has_iff.1 fun hq => hne (eq_of_leaf hk (by decide) hq hpq), ?_⟩
  refine missing_eq_enoent fun hm => ?_
  obtain ⟨x, hx, hkx⟩ := missing_eq_enotdir.1 hm
  have hxp : x = p := by
    rcases List.prefix_or_prefix_of_prefix hx hpq with hxp | hpx
    · rcases hkx with h | h <;> exact eq_of_leaf h (by decide) (has_of_kind hk) hxp
    · rcases hkx with h | h <;> exact (eq_of_leaf hk (by decide) (has_of_kind h) hpx).symm
  subst hxp
  rw [hk] at hkx
  simp at hkx

/-! ## `os.MkdirAll` -/

/-- One missing directory. -/
def mkdir (t : Tree) (p : Path) (perm : Perm) (now : Time) : Tree :=
  if t.Has p then t
  else (t.put p (.dir ⟨perm, newDirSize, now⟩)).stamp p.dropLast now

/-- The missing directories among the extensions of `done` by `rest`. -/
def mkdirs (t : Tree) (perm : Perm) (now : Time) (done : Path) : Path → Tree
  | [] => t
  | x :: rest => (t.mkdir (done ++ [x]) perm now).mkdirs perm now (done ++ [x]) rest

/-- `os.MkdirAll` fails at an ancestor that is not a directory, before it has
created anything: what exists above an entry is a directory. -/
def mkdirAll (t : Tree) (p : Path) (perm : Perm) (now : Time) : Except Errno Tree :=
  if p.inits.any fun q => decide (t.Has q) && !decide (t.IsDir q) then .error .ENOTDIR
  else .ok ((t.mkdir [] perm now).mkdirs perm now [] p)

theorem mkdir_shape (perm : Perm) (now : Time) (hp : p = [] ∨ t.IsDir p.dropLast) (q : Path) :
    (t.mkdir p perm now).shape q =
      if q = p ∧ t.shape q = none then some (.dir ⟨perm, 0, 0⟩) else t.shape q := by
  unfold mkdir
  split
  · next h =>
    rw [if_neg]
    rintro ⟨rfl, hn⟩
    exact shape_ne_none.2 h hn
  · next h =>
    rw [shape_stamp, shape_put ⟨hp, .inl rfl⟩]
    by_cases hq : q = p
    · subst hq
      rw [if_pos rfl, if_pos ⟨rfl, not_not.1 (shape_ne_none.not.2 h)⟩]
      rfl
    · rw [if_neg hq, if_neg fun hc => hq hc.1]

theorem mkdir_stamped (hT : now ∈ T)
    (hp : p = [] ∨ t.IsDir p.dropLast) : Stamped T t (t.mkdir p perm now) := by
  unfold mkdir
  split
  · exact Stamped.refl T t
  · exact Stamped.put hT ⟨hp, .inl rfl⟩ fun a ha => by cases ha; exact hT

theorem mkdir_frame
    (hp : p = [] ∨ t.IsDir p.dropLast) (hq : ¬ q <+: p) : (t.mkdir p perm now).get q = t.get q := by
  unfold mkdir
  split
  · rfl
  · have h1 : q ≠ p.dropLast := fun h => hq (h ▸ List.dropLast_prefix p)
    have h2 : q ≠ p := fun h => hq (h ▸ List.prefix_rfl)
    rw [get_stamp_of_ne h1, get_put ⟨hp, .inl rfl⟩, if_neg h2]

theorem mkdir_isDir (perm : Perm) (now : Time)
    (hp : p = [] ∨ t.IsDir p.dropLast) (hd : t.Has p → t.IsDir p) : (t.mkdir p perm now).IsDir p := by
  rw [isDir_iff_shape, mkdir_shape perm now hp]
  by_cases h : t.Has p
  · rw [if_neg fun hc => shape_ne_none.2 h hc.2]
    exact isDir_iff_shape.1 (hd h)
  · rw [if_pos ⟨rfl, not_not.1 (shape_ne_none.not.2 h)⟩]
    rfl

/-- The directories `p` and above have been made, those that were missing with
the permission bits `perm`. -/
structure MadeDirs (T : Set Time) (perm : Perm) (p : Path) (t t' : Tree) : Prop where
  above : ∀ q, q <+: p → t.Has q → t.IsDir q
  shape : ∀ q, t'.shape q =
    if q <+: p ∧ t.shape q = none then some (.dir ⟨perm, 0, 0⟩) else t.shape q
  frame : ∀ q, ¬ q <+: p → t'.get q = t.get q
  stamped : Stamped T t t'

/-- The loop of `mkdirAll`, from a directory that exists. -/
theorem mkdirs_spec (perm : Perm) (hT : now ∈ T) (rest : Path) :
    ∀ (t : Tree) (done : Path), t.IsDir done →
      (∀ q, q <+: done ++ rest → t.Has q → t.IsDir q) →
      MadeDirs T perm (done ++ rest) t (t.mkdirs perm now done rest) := by
  induction rest with
  | nil =>
    intro t done hd hok
    refine ⟨hok, fun q => ?_, fun _ _ => rfl, Stamped.refl T t⟩
    rw [if_neg]
    · rfl
    · rintro ⟨hq, hn⟩
      rw [List.append_nil] at hq
      exact shape_ne_none.2 (has_of_isPrefix hd.has hq) hn
  | cons x rest ih =>
    intro t done hd hok
    have hpar : done ++ [x] = [] ∨ t.IsDir (done ++ [x]).dropLast := .inr (by simpa using hd)
    have hnext : done ++ [x] <+: done ++ x :: rest := by
      rw [List.prefix_append_right_inj]
      exact List.cons_prefix_cons.2 ⟨rfl, List.nil_prefix⟩
    have hshape := mkdir_shape perm now hpar
    have hhas : ∀ q, (t.mkdir (done ++ [x]) perm now).Has q → q = done ++ [x] ∨ t.Has q := by
      intro q hq
      rw [has_iff_shape, hshape] at hq
      split at hq
      · next hc => exact .inl hc.1
      · exact .inr (has_iff_shape.2 hq)
    have hdir := mkdir_isDir perm now hpar (hok _ hnext)
    have ih' := ih (t.mkdir (done ++ [x]) perm now) (done ++ [x]) hdir (by
      intro q hq hh
      rcases hhas q hh with rfl | hh'
      · exact hdir
      · have hq' := hok q (by simpa using hq) hh'
        rw [isDir_iff_shape, hshape, if_neg fun hc => shape_ne_none.2 hh' hc.2]
        exact isDir_iff_shape.1 hq')
    rw [List.append_assoc, List.singleton_append] at ih'
    refine ⟨hok, fun q => ?_, fun q hq => ?_, (mkdir_stamped hT hpar).trans ih'.stamped⟩
    · rw [mkdirs, ih'.shape, hshape]
      by_cases hq : q = done ++ [x]
      · subst hq
        by_cases hn : t.shape (done ++ [x]) = none
        · simp [hn, hnext]
        · simp [hn]
      · simp [hq]
    · rw [mkdirs, ih'.frame q hq, mkdir_frame hpar fun h => hq (h.trans hnext)]

/-- **`os.MkdirAll`** on a tree: every ancestor that exists is a directory, and
those that do not are created with the given permission bits. -/
theorem mkdirAll_spec
    (hT : now ∈ T) (h : t.mkdirAll p perm now = .ok t') : MadeDirs T perm p t t' := by
  unfold mkdirAll at h
  split at h
  · cases h
  · next hany =>
    cases h
    have hok : ∀ q, q <+: p → t.Has q → t.IsDir q := by
      intro q hq hh
      by_contra hnd
      exact hany (List.any_eq_true.2 ⟨q, (List.mem_inits q p).2 hq, by simp [hh, hnd]⟩)
    have hroot : ([] : Path) = [] ∨ t.IsDir (([] : Path)).dropLast := .inl rfl
    have hdir := mkdir_isDir perm now hroot (hok [] List.nil_prefix)
    have hshape := mkdir_shape perm now hroot
    have hloop := mkdirs_spec perm hT p (t.mkdir [] perm now) [] hdir (by
      intro q hq hh
      by_cases hq0 : q = []
      · exact hq0 ▸ hdir
      · rw [has_iff_shape, hshape, if_neg fun hc => hq0 hc.1] at hh
        rw [isDir_iff_shape, hshape, if_neg fun hc => hq0 hc.1]
        exact isDir_iff_shape.1 (hok q hq (has_iff_shape.2 hh)))
    rw [List.nil_append] at hloop
    refine ⟨hok, fun q => ?_, fun q hq => ?_, (mkdir_stamped hT hroot).trans hloop.stamped⟩
    · rw [hloop.shape, hshape]
      by_cases hq : q = []
      · subst hq
        by_cases hn : t.shape [] = none
        · simp [hn]
        · simp [hn]
      · simp [hq]
    · rw [hloop.frame q hq, mkdir_frame hroot fun h => hq (h.trans List.nil_prefix)]

theorem mkdirAll_ok (perm : Perm) (now : Time)
    (h : ∀ q, q <+: p → t.Has q → t.IsDir q) : ∃ t', t.mkdirAll p perm now = .ok t' := by
  unfold mkdirAll
  rw [if_neg]
  · exact ⟨_, rfl⟩
  · intro hany
    obtain ⟨q, hq, hc⟩ := List.any_eq_true.1 hany
    simp only [Bool.and_eq_true, decide_eq_true_eq, Bool.not_eq_true', decide_eq_false_iff_not] at hc
    exact hc.2 (h q ((List.mem_inits q p).1 hq) hc.1)

theorem mkdirAll_error
    (h : t.mkdirAll p perm now = .error e) : ∃ q, q <+: p ∧ t.Has q ∧ ¬ t.IsDir q := by
  by_contra hno
  obtain ⟨t', ht⟩ := mkdirAll_ok (t := t) (p := p) perm now fun q hq hh =>
    by_contra fun hd => hno ⟨q, hq, hh, hd⟩
  rw [ht] at h
  cases h

theorem isDir_stamp : (t.stamp p now).IsDir q ↔ t.IsDir q := by
  rw [isDir_iff_shape, isDir_iff_shape, shape_stamp]

theorem MadeDirs.isDir (h : MadeDirs T perm p t t') (hq : q <+: p) : t'.IsDir q := by
  rw [isDir_iff_shape, h.shape]
  by_cases hh : t.Has q
  · rw [if_neg fun hc => shape_ne_none.2 hh hc.2]
    exact isDir_iff_shape.1 (h.above q hq hh)
  · rw [if_pos ⟨hq, not_not.1 (shape_ne_none.not.2 hh)⟩]
    rfl

/-! ## Replacing and removing -/

/-- `os.Rename` of a finished temporary file over `p`. -/
def install (t : Tree) (p : Path) (f : File) (now : Time) : Except Errno Tree :=
  if t.IsDir p then .error .EEXIST
  else if p ≠ [] ∧ ¬ t.IsDir p.dropLast then .error .ENOENT
  else .ok ((t.put p (.file f)).stamp p.dropLast now)

/-- `os.RemoveAll`: nothing to do for a missing path, an error when an ancestor
is no directory. -/
def removeAll (t : Tree) (p : Path) (now : Time) : Except Errno Tree :=
  if t.Has p then .ok ((t.prune p).stamp p.dropLast now)
  else if t.missing p = .ENOENT then .ok t
  else .error (t.missing p)

/-- `os.Remove`: a file, or a directory with nothing in it. -/
def remove (t : Tree) (p : Path) (now : Time) : Except Errno Tree :=
  if t.Has p then
    if t.IsDir p ∧ t.names p ≠ [] then .error .ENOTEMPTY
    else .ok ((t.prune p).stamp p.dropLast now)
  else .error (t.missing p)

theorem admits_file (hd : ¬ t.IsDir p)
    (hp : p = [] ∨ t.IsDir p.dropLast) : t.Admits p (.file f) := by
  refine ⟨hp, .inr fun q hq hpq => ?_⟩
  by_contra hne
  have hh : t.Has q := has_iff.2 ((AList.mem_keys_iff_lookup _ _).1 hq)
  exact hd (isDir_of_above hh hpq (Ne.symm hne))

/-- The entry at `p`, which is no directory, has been replaced by the file `f`. -/
structure Installed (T : Set Time) (p : Path) (f : File) (t t' : Tree) : Prop where
  notDir : ¬ t.IsDir p
  parent : p = [] ∨ t.IsDir p.dropLast
  shape : ∀ q, t'.shape q = if q = p then some (.file f) else t.shape q
  frame : ∀ q, ¬ q <+: p → t'.get q = t.get q
  stamped : Stamped T t t'

/-- **`os.Rename`** over `p`. -/
theorem install_spec (hT : now ∈ T) (h : t.install p f now = .ok t') : Installed T p f t t' := by
  unfold install at h
  split at h
  · cases h
  · next hd =>
    split at h
    · cases h
    · next hp =>
      cases h
      have hp' : p = [] ∨ t.IsDir p.dropLast := by
        by_cases h0 : p = []
        · exact .inl h0
        · exact .inr (by_contra fun hc => hp ⟨h0, hc⟩)
      have hadm := admits_file (f := f) hd hp'
      refine ⟨hd, hp', fun q => ?_, fun q hq => ?_, Stamped.put hT hadm fun a ha => by cases ha⟩
      · rw [shape_stamp, shape_put hadm]
        rfl
      · have h1 : q ≠ p.dropLast := fun h => hq (h ▸ List.dropLast_prefix p)
        have h2 : q ≠ p := fun h => hq (h ▸ List.prefix_rfl)
        rw [get_stamp_of_ne h1, get_put hadm, if_neg h2]

theorem Installed.has (h : Installed T p f t t') (hq : t.Has q) : t'.Has q := by
  rw [has_iff_shape, h.shape]
  split
  · rfl
  · exact has_iff_shape.1 hq

theorem install_error
    (h : t.install p f now = .error e) : t.IsDir p ∨ (p ≠ [] ∧ ¬ t.IsDir p.dropLast) := by
  unfold install at h
  split at h
  · next hd => exact .inl hd
  · split at h
    · next hp => exact .inr hp
    · cases h

/-- `p` and everything below it are gone. -/
structure Pruned (T : Set Time) (p : Path) (t t' : Tree) : Prop where
  shape : ∀ q, t'.shape q = if p <+: q then none else t.shape q
  frame : ∀ q, ¬ p <+: q → q ≠ p.dropLast → t'.get q = t.get q
  stamped : Stamped T t t'

theorem Pruned.of_prune (hT : now ∈ T) (t : Tree) (p : Path) :
    Pruned T p t ((t.prune p).stamp p.dropLast now) := by
  refine ⟨fun q => by rw [shape_stamp, shape_prune], fun q hq hne => ?_, Stamped.prune hT t p⟩
  rw [get_stamp_of_ne hne, get_prune, if_neg hq]

theorem Pruned.of_not_has (T : Set Time) (h : ¬ t.Has p) : Pruned T p t t := by
  refine ⟨fun q => ?_, fun _ _ _ => rfl, Stamped.refl T t⟩
  split
  · next hpq => exact shape_eq_none.2 (not_has_iff.1 fun hq => h (has_of_isPrefix hq hpq))
  · rfl

/-- **`os.RemoveAll`**: nothing is left at or below `p`. -/
theorem removeAll_spec (hT : now ∈ T) (h : t.removeAll p now = .ok t') : Pruned T p t t' := by
  unfold removeAll at h
  split at h
  · cases h
    exact .of_prune hT t p
  · next hh =>
    split at h
    · cases h
      exact .of_not_has T hh
    · cases h

/-- What was there had a directory above it; a missing path stays missing. -/
theorem removeAll_parent (hp : p ≠ [])
    (h : t.removeAll p now = .ok t') : t'.Has p.dropLast ∨ t'.missing p = .ENOENT := by
  by_cases hh : t.Has p
  · have hdir := isDir_of_above hh (List.dropLast_prefix p) (dropLast_ne_self hp)
    refine .inl ?_
    rw [has_iff_shape, (removeAll_spec (Set.mem_univ _) h).shape, if_neg (not_prefix_dropLast hp),
      ← has_iff_shape]
    exact hdir.has
  · rw [removeAll, if_neg hh] at h
    split at h
    · next hm =>
      cases h
      exact .inr hm
    · cases h

theorem removeAll_ok (now : Time) (h : t.Has p) : ∃ t', t.removeAll p now = .ok t' := by
  unfold removeAll
  rw [if_pos h]
  exact ⟨_, rfl⟩

theorem remove_spec (hT : now ∈ T) (h : t.remove p now = .ok t') : Pruned T p t t' := by
  unfold remove at h
  split at h
  · split at h
    · cases h
    · cases h
      exact .of_prune hT t p
  · cases h

theorem remove_shape (h : t.remove p now = .ok t') :
    t'.shape q = if p = q then none else t.shape q := by
  rw [(remove_spec (Set.mem_univ _) h).shape]
  by_cases hpq : p = q
  · rw [if_pos hpq, if_pos (hpq ▸ List.prefix_rfl)]
  · rw [if_neg hpq]
    split
    · next hpre =>
      -- a path below would make `p` a directory that is not empty
      refine (shape_eq_none.2 (not_has_iff.1 fun hq => ?_)).symm
      obtain ⟨x, hx⟩ : ∃ x, p ++ [x] <+: q := by
        obtain ⟨rest, rfl⟩ := hpre
        cases rest with
        | nil => simp at hpq
        | cons x rest => exact ⟨x, rest, by simp⟩
      have hdir := isDir_of_above hq hpre hpq
      have hmem := mem_names.2 (has_of_isPrefix hq hx)
      unfold remove at h
      rw [if_pos hdir.has, if_pos ⟨hdir, List.ne_nil_of_mem hmem⟩] at h
      cases h
    · rfl

theorem remove_ok (now : Time) (h : t.Has p) (hd : ¬ t.IsDir p) :
    ∃ t', t.remove p now = .ok t' := by
  unfold remove
  rw [if_pos h, if_neg fun hc => hd hc.1]
  exact ⟨_, rfl⟩

end Tree

end Dockerset.Os

import Dockerset.Data.FilterKeys
import Dockerset.Go.FilePath

/-!
# File trees

A file system seen from one of its directories: a finite map from relative
paths to nodes in which everything but the root lies in a directory. The
empty path is the root; a tree without root entry is empty (the directory does
not exist).

A directory's own size and modification time are part of its node, because
`Stat` reports them: adding, replacing or removing an entry stamps the
directory that holds it.
-/

namespace Dockerset.Os
open Go

theorem prefix_antisymm {p q : Path} (h : p <+: q) (h' : q <+: p) : p = q :=
  h.eq_of_length_le h'.length_le

theorem not_prefix_dropLast {p : Path} (h : p ≠ []) : ¬ p <+: p.dropLast := by
  intro hp
  have hle := hp.length_le
  have hpos := List.length_pos_iff.2 h
  rw [List.length_dropLast] at hle
  omega

theorem dropLast_ne_self {p : Path} (h : p ≠ []) : p.dropLast ≠ p := fun he =>
  not_prefix_dropLast h (by rw [he])

/-- The permission bits of a mode (`os.FileMode.Perm`). -/
abbrev Perm := BitVec 9

/-- Nanoseconds since the epoch. -/
abbrev Time := Int

inductive Kind where
  | dir
  | file
  | symlink
  /-- fifo, socket, device -/
  | special
deriving DecidableEq

/-- What `Stat` and `Lstat` report (`os.FileInfo`). -/
@[ext] structure Info where
  kind : Kind
  perm : Perm
  size : Nat
  mtime : Time
deriving DecidableEq

/-- A regular file. Its size is the length of its content. -/
structure File where
  perm : Perm
  mtime : Time
  content : List UInt8
deriving DecidableEq

/-- The metadata of a node that has no content of its own here. -/
structure Attr where
  perm : Perm
  size : Nat
  mtime : Time
deriving DecidableEq

inductive Node where
  | dir (a : Attr)
  | file (f : File)
  | symlink (a : Attr)
  | special (a : Attr)
deriving DecidableEq

def File.info (f : File) : Info := ⟨.file, f.perm, f.content.length, f.mtime⟩

def Attr.info (k : Kind) (a : Attr) : Info := ⟨k, a.perm, a.size, a.mtime⟩

def Node.info : Node → Info
  | .dir a => a.info .dir
  | .file f => f.info
  | .symlink a => a.info .symlink
  | .special a => a.info .special

abbrev Node.kind (n : Node) : Kind := n.info.kind

@[simp] theorem Node.kind_dir (a : Attr) : (Node.dir a).kind = .dir := rfl
@[simp] theorem Node.kind_file (f : File) : (Node.file f).kind = .file := rfl
@[simp] theorem Node.kind_symlink (a : Attr) : (Node.symlink a).kind = .symlink := rfl
@[simp] theorem Node.kind_special (a : Attr) : (Node.special a).kind = .special := rfl

theorem Node.kind_eq_dir {n : Node} : n.kind = .dir ↔ ∃ a, n = .dir a := by
  cases n <;> simp [Node.kind, Node.info, Attr.info, File.info]

theorem Node.kind_eq_file {n : Node} : n.kind = .file ↔ ∃ f, n = .file f := by
  cases n <;> simp [Node.kind, Node.info, Attr.info, File.info]

/-- A file tree: every entry but the root has a directory above it. -/
structure Tree where
  nodes : AList fun _ : Path => Node
  closed : ∀ p x n, nodes.lookup (p ++ [x]) = some n → ∃ a, nodes.lookup p = some (.dir a)

namespace Tree

def get (t : Tree) (p : Path) : Option Node := t.nodes.lookup p

def kind (t : Tree) (p : Path) : Option Kind := (t.get p).map Node.kind

variable {t : Tree} {p q : Path} {n : Node}

theorem kind_of_get (h : t.get p = some n) : t.kind p = some n.kind := by
  rw [kind, h]
  rfl

/-- There is an entry at `p`. -/
def Has (t : Tree) (p : Path) : Prop := (t.get p).isSome = true

instance (t : Tree) (p : Path) : Decidable (t.Has p) :=
  inferInstanceAs (Decidable ((t.get p).isSome = true))

def IsDir (t : Tree) (p : Path) : Prop := t.kind p = some .dir

instance (t : Tree) (p : Path) : Decidable (t.IsDir p) :=
  inferInstanceAs (Decidable (t.kind p = some .dir))

theorem isDir_iff : t.IsDir p ↔ ∃ a, t.get p = some (.dir a) := by
  simp only [IsDir, kind, Option.map_eq_some_iff, Node.kind_eq_dir]
  constructor
  · rintro ⟨n, h, a, rfl⟩
    exact ⟨a, h⟩
  · rintro ⟨a, h⟩
    exact ⟨_, h, a, rfl⟩

theorem has_iff : t.Has p ↔ ∃ n, t.get p = some n := Option.isSome_iff_exists

theorem not_has_iff : ¬ t.Has p ↔ t.get p = none := by
  simp [Has]

theorem has_of_get (h : t.get p = some n) : t.Has p :=
  has_iff.2 ⟨n, h⟩

theorem IsDir.has (h : t.IsDir p) : t.Has p := by
  obtain ⟨a, h⟩ := isDir_iff.1 h
  exact has_of_get h

theorem isDir_of_above (h : t.Has q) (hp : p <+: q) (hne : p ≠ q) : t.IsDir p := by
  obtain ⟨r, rfl⟩ := hp
  have hr : r ≠ [] := fun h0 => hne (by simp [h0])
  induction r using List.reverseRecOn with
  | nil => exact absurd rfl hr
  | append_singleton r x ih =>
    obtain ⟨n, hn⟩ := has_iff.1 h
    rw [← List.append_assoc] at hn
    have hup : ∃ a, t.get (p ++ r) = some (.dir a) := t.closed _ x n hn
    by_cases h0 : r = []
    · subst h0
      exact isDir_iff.2 (by simpa using hup)
    · exact ih (isDir_iff.2 hup).has (by simpa using h0) h0

theorem has_of_isPrefix (h : t.Has q) (hp : p <+: q) : t.Has p := by
  by_cases hne : p = q
  · exact hne ▸ h
  · exact (isDir_of_above h hp hne).has

theorem has_of_kind {k : Kind} (h : t.kind p = some k) : t.Has p := by
  obtain ⟨n, hn, -⟩ := Option.map_eq_some_iff.1 h
  exact has_of_get hn

theorem exists_kind (h : t.Has p) : ∃ k, t.kind p = some k := by
  obtain ⟨n, hn⟩ := has_iff.1 h
  exact ⟨n.kind, by rw [kind, hn]; rfl⟩

theorem eq_of_leaf {k : Kind} (hk : t.kind p = some k) (hnd : k ≠ .dir)
    (hq : t.Has q) (hpq : p <+: q) : p = q := by
  by_contra hne
  have hd : t.kind p = some .dir := isDir_of_above hq hpq hne
  rw [hk] at hd
  exact hnd (Option.some.inj hd)

/-- A property of all entries is one of finitely many. -/
theorem forall_get_iff {P : Path → Node → Prop} :
    (∀ p n, t.get p = some n → P p n) ↔ ∀ p ∈ t.nodes.keys, ∀ n ∈ t.get p, P p n :=
  ⟨fun h p _ n hn => h p n hn,
    fun h p n hn => h p ((AList.mem_keys_iff_lookup _ _).2 ⟨n, hn⟩) n hn⟩

instance (t : Tree) (P : Path → Node → Prop) [∀ p n, Decidable (P p n)] :
    Decidable (∀ p n, t.get p = some n → P p n) := decidable_of_iff' _ forall_get_iff

/-- An entry `n` may be put at `p`: there is a directory above it, and it is a
directory itself if there are entries below. -/
def Admits (t : Tree) (p : Path) (n : Node) : Prop :=
  (p = [] ∨ t.IsDir p.dropLast) ∧ (n.kind = .dir ∨ ∀ q ∈ t.nodes.keys, p <+: q → q = p)

instance (t : Tree) (p : Path) (n : Node) : Decidable (t.Admits p n) :=
  inferInstanceAs (Decidable ((p = [] ∨ t.IsDir p.dropLast) ∧
    (n.kind = .dir ∨ ∀ q ∈ t.nodes.keys, p <+: q → q = p)))

theorem put_closed (h : t.Admits p n) : ∀ q x m, (t.nodes.insert p n).lookup (q ++ [x]) = some m →
      ∃ a, (t.nodes.insert p n).lookup q = some (.dir a) := by
  intro q x m hm
  rw [AList.lookup_insert_eq_ite] at hm ⊢
  split at hm
  · next hqx =>
    subst hqx
    have hdir : t.IsDir q := by simpa using h.1
    rw [if_neg (by simp)]
    exact isDir_iff.1 hdir
  · split
    · next hq =>
      subst hq
      rcases h.2 with hn | hbelow
      · obtain ⟨a, rfl⟩ := Node.kind_eq_dir.1 hn
        exact ⟨a, rfl⟩
      · have hk := (AList.mem_keys_iff_lookup t.nodes _).2 ⟨m, hm⟩
        exact absurd (hbelow _ hk (List.prefix_append _ _)) (by simp)
    · exact t.closed q x m hm

/-- Set the node at `p`, where the tree admits it. -/
def put (t : Tree) (p : Path) (n : Node) : Tree :=
  if h : t.Admits p n then ⟨t.nodes.insert p n, put_closed h⟩ else t

theorem get_put (h : t.Admits p n) (q : Path) :
    (t.put p n).get q = if q = p then some n else t.get q := by
  rw [put, dif_pos h]
  exact AList.lookup_insert_eq_ite _ _ _ _

/-- Remove `p` and everything below it. -/
def prune (t : Tree) (p : Path) : Tree where
  nodes := t.nodes.filterKeys fun q => !p.isPrefixOf q
  closed := by
    intro q x n hn
    rw [AList.lookup_filterKeys] at hn ⊢
    split at hn
    · next hq =>
      obtain ⟨a, ha⟩ := t.closed q x n hn
      refine ⟨a, ?_⟩
      rw [if_pos, ha]
      simp only [Bool.not_eq_true', Bool.eq_false_iff, ne_eq, List.isPrefixOf_iff_prefix] at hq ⊢
      exact fun hpq => hq (hpq.trans (List.prefix_append _ _))
    · cases hn

theorem get_prune (t : Tree) (p q : Path) :
    (t.prune p).get q = if p <+: q then none else t.get q := by
  rw [get, prune, AList.lookup_filterKeys]
  simp only [Bool.not_eq_true', Bool.eq_false_iff, ne_eq, List.isPrefixOf_iff_prefix]
  by_cases h : p <+: q <;> simp [h, get]

/-- Set the modification time of the directory at `p`. -/
def stamp (t : Tree) (p : Path) (now : Time) : Tree :=
  match t.get p with
  | some (.dir a) => t.put p (.dir { a with mtime := now })
  | _ => t

theorem admits_dir_of_has {a : Attr} (h : t.Has p) : t.Admits p (.dir a) := by
  refine ⟨?_, .inl rfl⟩
  by_cases hp : p = []
  · exact .inl hp
  · exact .inr (isDir_of_above h (List.dropLast_prefix p) (dropLast_ne_self hp))

theorem get_stamp (t : Tree) (p : Path) (now : Time) (q : Path) :
    (t.stamp p now).get q = if q = p then (t.get q).map fun
      | .dir a => .dir { a with mtime := now }
      | n => n
    else t.get q := by
  unfold stamp
  split
  · next a ha =>
    rw [get_put (admits_dir_of_has (has_of_get ha))]
    split
    · next hq => subst hq; simp [ha]
    · rfl
  · next hno =>
    split
    · next hq =>
      subst hq
      cases hg : t.get q with
      | none => rfl
      | some n =>
        cases n with
        | dir a => exact absurd hg (hno a)
        | _ => rfl
    · rfl

/-- The names in the directory `p`, in the order `os.ReadDir` returns them. -/
def names (t : Tree) (p : Path) : List Name :=
  (t.nodes.keys.filterMap fun q =>
    if q.dropLast = p then q.getLast? else none).insertionSort fun x y => x.val ≤ y.val

theorem mem_names {x : Name} : x ∈ t.names p ↔ t.Has (p ++ [x]) := by
  rw [names, List.mem_insertionSort, List.mem_filterMap, has_iff]
  constructor
  · rintro ⟨q, hq, hx⟩
    split at hx
    · next hp =>
      obtain ⟨r, rfl⟩ := List.getLast?_eq_some_iff.1 hx
      rw [List.dropLast_concat] at hp
      subst hp
      exact (AList.mem_keys_iff_lookup _ _).1 hq
    · cases hx
  · intro h
    exact ⟨p ++ [x], (AList.mem_keys_iff_lookup _ _).2 h, by simp⟩

theorem names_nodup (t : Tree) (p : Path) : (t.names p).Nodup := by
  rw [names, (List.perm_insertionSort _ _).nodup_iff]
  refine List.Nodup.filterMap ?_ t.nodes.keys_nodup
  intro q q' x hq hq'
  simp only [Option.mem_def, Option.ite_none_right_eq_some] at hq hq'
  obtain ⟨r, rfl⟩ := List.getLast?_eq_some_iff.1 hq.2
  obtain ⟨r', rfl⟩ := List.getLast?_eq_some_iff.1 hq'.2
  simp only [List.dropLast_concat] at hq hq'
  rw [hq.1, hq'.1]

end Tree

end Dockerset.Os

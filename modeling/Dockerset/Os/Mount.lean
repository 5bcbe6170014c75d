import Dockerset.Go.AbsPath
import Dockerset.Os.Trees

/-!
# A disk of one file system

The source and the destination are two directories of the same file system,
anywhere in it. `Fs` is the tree from the root directory, with the texts of its
symbolic links; a path is looked up component by component, and links on the
way are followed (`find`). `Mount` adds the two roots, as absolute paths.

`Within A` relates two trees that differ in the places `A` only. `Leads` says to
which places a path may lead while links are removed and none is made; where no link
is on the way, that is the path itself.
-/

namespace Dockerset.Os
open Go Logic

structure Fs where
  tree : Tree
  /-- the text of the link at a path -/
  text : Path → Str

namespace Fs

/-- The components `ws` from the directory `cur` on. `expand` goes on after a
link; the last component is followed if `follow` says so, and may be missing. -/
def enter (fs : Fs) (follow : Bool) (expand : Path → List Str → Except Errno Path) :
    Path → List Str → Except Errno Path
  | cur, [] => .ok cur
  | cur, w :: ws =>
    if w = [] ∨ w = ['.'] then fs.enter follow expand cur ws
    else if w = ['.', '.'] then fs.enter follow expand cur.dropLast ws
    else if h : ValidName w then
      let p := cur ++ [⟨w, h⟩]
      match fs.tree.kind p with
      | some .dir => fs.enter follow expand p ws
      | some .symlink =>
        if ws = [] ∧ follow = false then .ok p
        else expand (if isAbs (fs.text p) then [] else cur) ((fs.text p).splitOn '/' ++ ws)
      | some _ => if ws = [] then .ok p else .error .ENOTDIR
      | none => if ws = [] then .ok p else .error .ENOENT
    else .error .ENOENT

/-- The lookup of a path, with at most so many links on the way. -/
def resolve (fs : Fs) (follow : Bool) : Nat → Path → List Str → Except Errno Path
  | 0 => fs.enter follow fun _ _ => .error .ELOOP
  | links + 1 => fs.enter follow (fs.resolve follow links)

/-- Where the absolute path `p` leads to. -/
def find (fs : Fs) (follow : Bool) (p : Path) : Except Errno Path :=
  fs.resolve follow 40 [] (p.map Subtype.val)

def lstat (fs : Fs) (p : Path) : Except Errno Info := do fs.tree.lstat (← fs.find false p)

def stat (fs : Fs) (p : Path) : Except Errno Info := do fs.tree.lstat (← fs.find true p)

def onTree (fs : Fs) (t : Except Errno Tree) : Except Errno Fs := t.map fun t => { fs with tree := t }

/-- One directory of `os.MkdirAll`: it is there, or it is made. -/
def mkdirOne (fs : Fs) (p : Path) (perm : Perm) (now : Time) : Except Errno Fs :=
  match fs.stat p with
  | .ok info => if info.kind = .dir then .ok fs else .error .ENOTDIR
  | .error _ => do
    let q ← fs.find false p
    if fs.tree.Has q then .error .EEXIST else fs.onTree (.ok (fs.tree.mkdir q perm now))

def mkdirFrom (fs : Fs) (perm : Perm) (now : Time) (done : Path) : Path → Except Errno Fs
  | [] => .ok fs
  | x :: rest => do
    let fs ← fs.mkdirOne (done ++ [x]) perm now
    fs.mkdirFrom perm now (done ++ [x]) rest

/-- `os.MkdirAll`. Once a directory has been made nothing is found below it, so a
call that fails has made none. -/
def mkdirAll (fs : Fs) (p : Path) (perm : Perm) (now : Time) : Except Errno Fs :=
  fs.mkdirFrom perm now [] p

/-- A new entry in the directory `p`, or one less. -/
def touch (fs : Fs) (p : Path) (now : Time) : Except Errno Fs := do
  let q ← fs.find true p
  if fs.tree.IsDir q then fs.onTree (.ok (fs.tree.stamp q now))
  else if fs.tree.Has q then .error .ENOTDIR
  else .error .ENOENT

def install (fs : Fs) (p : Path) (f : File) (now : Time) : Except Errno Fs := do
  let q ← fs.find false p
  fs.onTree (fs.tree.install q f now)

def remove (fs : Fs) (p : Path) (now : Time) : Except Errno Fs := do
  let q ← fs.find false p
  fs.onTree (fs.tree.remove q now)

def removeAll (fs : Fs) (p : Path) (now : Time) : Except Errno Fs :=
  match fs.find false p with
  | .error .ENOENT => .ok fs
  | .error e => .error e
  | .ok q => fs.onTree (fs.tree.removeAll q now)

end Fs

/-- A file system with a source and a destination directory in it. -/
structure Mount where
  fs : Fs
  src : Path
  dst : Path

namespace Mount

/-- `filepath.Join(root, rel)`. -/
def path (m : Mount) (l : Loc) : Path :=
  match l.side with
  | .src => m.src ++ l.path
  | .dst => m.dst ++ l.path

def onFs (m : Mount) (fs : Except Errno Fs) : Except Errno Mount := fs.map fun fs => { m with fs := fs }

instance : Disk Mount where
  lstat m l := m.fs.lstat (m.path l)
  stat m l := m.fs.stat (m.path l)
  readDir m l := do m.fs.tree.readDir (← m.fs.find true (m.path l))
  openFile m l := do m.fs.tree.openFile (← m.fs.find true (m.path l))
  mkdirAll m l perm now := m.onFs (m.fs.mkdirAll (m.path l) perm now)
  mkdirParent m l perm now := m.onFs (m.fs.mkdirAll (m.path l).dropLast perm now)
  touchParent m l now := m.onFs (m.fs.touch (m.path l).dropLast now)
  install m l f now := m.onFs (m.fs.install (m.path l) f now)
  remove m l now := m.onFs (m.fs.remove (m.path l) now)
  removeAll m l now := m.onFs (m.fs.removeAll (m.path l) now)
  openParent m l := do
    let q ← m.fs.find true (m.path l).dropLast
    if m.fs.tree.Has q then .ok () else .error .ENOENT

end Mount

/-- A file system with nothing going on in it, seen with the usual umask. -/
def World.resting (fs : Fs) (src dst : Path) (clock : Nat → Time) : World Mount where
  disk := ⟨fs, src, dst⟩
  tmp := none
  umask := 0o022
  pathMax := 8
  clock := clock
  tick := 0
  plan := []

/-! ## Staying within a directory -/

/-- At `B`, below it or above it. -/
def Along (B q : Path) : Prop := B <+: q ∨ q <+: B

instance (B q : Path) : Decidable (Along B q) := inferInstanceAs (Decidable (_ ∨ _))

theorem Along.of_prefix {B p q : Path} (h : Along B q) (hp : p <+: q) : Along B p := by
  rcases h with h | h
  · exact List.prefix_or_prefix_of_prefix h hp
  · exact .inr (hp.trans h)

theorem Along.dropLast {B q : Path} (h : Along B q) : Along B q.dropLast :=
  h.of_prefix (List.dropLast_prefix q)

/-- The trees differ in the places `A` only, and no link is new. -/
structure Within (A : Path → Prop) (t t' : Tree) : Prop where
  frame : ∀ q, ¬ A q → t'.get q = t.get q
  link : ∀ q, t'.kind q = some .symlink → t.kind q = some .symlink

namespace Within

variable {A : Path → Prop} {p : Path} {t t' t'' : Tree} {now : Time} {perm : Perm}

theorem refl (A : Path → Prop) (t : Tree) : Within A t t := ⟨fun _ _ => rfl, fun _ h => h⟩

theorem trans (h : Within A t t') (h' : Within A t' t'') : Within A t t'' :=
  ⟨fun q hq => (h'.frame q hq).trans (h.frame q hq), fun q hq => h.link q (h'.link q hq)⟩

theorem stamp (hp : A p) (t : Tree) (now : Time) : Within A t (t.stamp p now) where
  frame q hq := by
    refine Tree.get_stamp_of_ne ?_
    rintro rfl
    exact hq hp
  link q hq := by rwa [Tree.kind_eq_shape, Tree.shape_stamp, ← Tree.kind_eq_shape] at hq

theorem put (hp : A p) (t : Tree) {n : Node} (hn : n.kind ≠ .symlink) :
    Within A t (t.put p n) := by
  by_cases hadm : t.Admits p n
  · refine ⟨fun q hq => ?_, fun q hq => ?_⟩
    · have hne : q ≠ p := by
        rintro rfl
        exact hq hp
      rw [Tree.get_put hadm, if_neg hne]
    · rw [Tree.kind, Tree.get_put hadm] at hq
      split at hq
      · exact absurd (Option.some.inj hq) hn
      · exact hq
  · rw [Tree.put, dif_neg hadm]
    exact refl A t

theorem prune (hp : ∀ q, p <+: q → A q) (t : Tree) : Within A t (t.prune p) := by
  refine ⟨fun q hq => ?_, fun q hq => ?_⟩
  · rw [Tree.get_prune, if_neg fun h => hq (hp q h)]
  · rw [Tree.kind, Tree.get_prune] at hq
    split at hq
    · cases hq
    · exact hq

theorem mkdir (hp : A p) (hup : A p.dropLast) (t : Tree) (perm : Perm) (now : Time) :
    Within A t (t.mkdir p perm now) := by
  unfold Tree.mkdir
  split
  · exact refl A t
  · exact (put hp t (by simp)).trans (stamp hup _ now)

theorem install {f : File} (hp : A p) (hup : A p.dropLast) (h : t.install p f now = .ok t') :
    Within A t t' := by
  unfold Tree.install at h
  split_ifs at h
  cases h
  exact (put hp t (by simp)).trans (stamp hup _ now)

theorem removed (hp : ∀ q, p <+: q → A q) (hup : A p.dropLast) (t : Tree) (now : Time) :
    Within A t ((t.prune p).stamp p.dropLast now) :=
  (prune hp t).trans (stamp hup _ now)

end Within

/-- No link lies on the way to `B`, at it or below it. -/
def Linkless (B : Path) (t : Tree) : Prop := ∀ q, Along B q → t.kind q ≠ some .symlink

theorem linkless_of_keys {B : Path} {t : Tree}
    (h : ∀ q ∈ t.nodes.keys, t.kind q ≠ some .symlink) : Linkless B t := by
  intro q _ hlink
  obtain ⟨n, hn⟩ := Tree.has_iff.1 (Tree.has_of_kind hlink)
  exact h q ((AList.mem_keys_iff_lookup t.nodes q).2 ⟨n, hn⟩) hlink

namespace Fs

variable {B p q : Path} {fs fs' : Fs} {now : Time} {perm : Perm}

theorem enter_name {follow : Bool} (expand : Path → List Str → Except Errno Path) (cur : Path)
    (x : Name) (ws : List Str) :
    fs.enter follow expand cur (x.val :: ws) =
      match fs.tree.kind (cur ++ [x]) with
      | some .dir => fs.enter follow expand (cur ++ [x]) ws
      | some .symlink =>
        if ws = [] ∧ follow = false then .ok (cur ++ [x])
        else expand (if isAbs (fs.text (cur ++ [x])) then [] else cur)
          ((fs.text (cur ++ [x])).splitOn '/' ++ ws)
      | some _ => if ws = [] then .ok (cur ++ [x]) else .error .ENOTDIR
      | none => if ws = [] then .ok (cur ++ [x]) else .error .ENOENT := by
  obtain ⟨hne, -, hdot, hdots⟩ := x.property
  rw [enter, if_neg (not_or.2 ⟨hne, hdot⟩), if_neg hdots, dif_pos x.property]

/-- Where the components `ws` may lead from `cur` on, when links of `fs` are removed and
none is made: a link is followed, or it is gone and its place is passed. -/
inductive Leads (fs : Fs) : Path → List Str → Path → Prop
  | stop (cur : Path) : Leads fs cur [] cur
  | skip {cur q : Path} {w : Str} {ws : List Str} : w = [] ∨ w = ['.'] → Leads fs cur ws q →
      Leads fs cur (w :: ws) q
  | up {cur q : Path} {ws : List Str} : Leads fs cur.dropLast ws q →
      Leads fs cur (['.', '.'] :: ws) q
  | name {cur q : Path} {ws : List Str} (x : Name) : Leads fs (cur ++ [x]) ws q →
      Leads fs cur (x.val :: ws) q
  | link {cur q : Path} {ws : List Str} (x : Name) : fs.tree.kind (cur ++ [x]) = some .symlink →
      Leads fs (if isAbs (fs.text (cur ++ [x])) then [] else cur)
        ((fs.text (cur ++ [x])).splitOn '/' ++ ws) q → Leads fs cur (x.val :: ws) q

theorem Leads.append {cur q : Path} {ws : List Str} (h : Leads fs cur ws q) (names : Path) :
    Leads fs cur (ws ++ names.map Subtype.val) (q ++ names) := by
  induction h with
  | stop cur =>
    induction names generalizing cur with
    | nil =>
      rw [List.append_nil]
      exact .stop cur
    | cons x names ih =>
      have h := ih (cur ++ [x])
      rw [List.append_assoc] at h
      exact .name x h
  | skip hw _ ih => exact .skip hw ih
  | up _ ih => exact .up ih
  | name x _ ih => exact .name x ih
  | link x hx _ ih =>
    rw [List.append_assoc] at ih
    exact .link x hx ih

/-- A lookup after links have been removed leads to one of these places. -/
theorem Leads.of_enter {follow : Bool} {expand : Path → List Str → Except Errno Path}
    (htext : fs'.text = fs.text)
    (hlink : ∀ p, fs'.tree.kind p = some .symlink → fs.tree.kind p = some .symlink)
    (hexpand : ∀ {cur ws q}, expand cur ws = .ok q → Leads fs cur ws q) (ws : List Str) :
    ∀ {cur q}, fs'.enter follow expand cur ws = .ok q → Leads fs cur ws q := by
  induction ws with
  | nil =>
    intro cur q h
    cases h
    exact .stop cur
  | cons w ws ih =>
    intro cur q h
    by_cases hskip : w = [] ∨ w = ['.']
    · rw [enter, if_pos hskip] at h
      exact .skip hskip (ih h)
    by_cases hup : w = ['.', '.']
    · rw [enter, if_neg hskip, if_pos hup] at h
      rw [hup]
      exact .up (ih h)
    by_cases hw : ValidName w
    · obtain ⟨x, rfl⟩ : ∃ x : Name, x.val = w := ⟨⟨w, hw⟩, rfl⟩
      rw [enter_name] at h
      -- what is neither a directory nor a link ends the lookup
      have hlast : ∀ e : Errno, (if ws = [] then .ok (cur ++ [x]) else .error e) =
          (.ok q : Except Errno Path) → Leads fs cur (x.val :: ws) q := by
        intro e he
        split at he
        · next hnil =>
          cases he
          rw [hnil]
          exact .name x (.stop _)
        · cases he
      cases hk : fs'.tree.kind (cur ++ [x]) with
      | none =>
        rw [hk] at h
        exact hlast _ h
      | some k =>
        rw [hk] at h
        cases k with
        | dir => exact .name x (ih h)
        | file => exact hlast _ h
        | special => exact hlast _ h
        | symlink =>
          by_cases hstop : ws = [] ∧ follow = false
          · rw [hstop.1]
            cases (if_pos hstop).symm.trans h
            exact .name x (.stop _)
          · rw [htext] at h
            exact .link x (hlink _ hk) (hexpand ((if_neg hstop).symm.trans h))
    · rw [enter, if_neg hskip, if_neg hup, dif_neg hw] at h
      cases h

theorem Leads.of_find {follow : Bool} (htext : fs'.text = fs.text)
    (hlink : ∀ p, fs'.tree.kind p = some .symlink → fs.tree.kind p = some .symlink)
    (h : fs'.find follow p = .ok q) : Leads fs [] (p.map Subtype.val) q := by
  have hresolve : ∀ (links : Nat) {cur : Path} {ws : List Str} {q : Path},
      fs'.resolve follow links cur ws = .ok q → Leads fs cur ws q := by
    intro links
    induction links with
    | zero => exact fun h => .of_enter htext hlink (fun h => by cases h) _ h
    | succ links ih => exact fun h => .of_enter htext hlink ih _ h
  exact hresolve 40 h

/-- Without links on the way, a path can lead nowhere else. -/
theorem Leads.eq {names : Path} : ∀ {cur : Path},
    (∀ r, r <+: cur ++ names → fs.tree.kind r ≠ some .symlink) →
    Leads fs cur (names.map Subtype.val) q → q = cur ++ names := by
  induction names with
  | nil =>
    intro cur _ h
    cases h
    simp
  | cons x names ih =>
    intro cur hno h
    have hnext : cur ++ x :: names = cur ++ [x] ++ names := by simp
    rw [hnext] at hno ⊢
    rw [List.map_cons] at h
    generalize hw : x.val = w at h
    cases h with
    | skip hskip _ => exact absurd (hw ▸ hskip) (not_or.2 ⟨x.property.1, x.property.2.2.1⟩)
    | up _ => exact absurd hw x.property.2.2.2
    | name y h =>
      rw [← Subtype.ext hw] at h
      exact ih hno h
    | link y hy _ =>
      rw [← Subtype.ext hw] at hy
      exact absurd hy (hno _ (List.prefix_append _ _))

theorem find_eq {follow : Bool} (hno : ∀ r, r <+: p → fs.tree.kind r ≠ some .symlink)
    (h : fs.find follow p = .ok q) : q = p := by
  have hq : q = [] ++ p := Leads.eq hno (.of_find rfl (fun _ hr => hr) h)
  exact hq

theorem find_along {follow : Bool} (hB : Linkless B fs.tree) (hp : Along B p)
    (h : fs.find follow p = .ok q) : q = p :=
  find_eq (fun r hr => hB r (hp.of_prefix hr)) h

end Fs

/-! ## Changes at one place -/

/-- `R` relates a file system to what is made of it by a change that removes nothing: a
directory at a place in `A` is made or stamped, or a file is put at a place in `C`. -/
structure Changes (A C : Path → Prop) (R : Fs → Fs → Prop) : Prop where
  refl : ∀ fs, R fs fs
  trans : ∀ {fs fs' fs''}, R fs fs' → R fs' fs'' → R fs fs''
  stamp : ∀ {p} (fs : Fs) (now : Time), A p → R fs { fs with tree := fs.tree.stamp p now }
  mkdir : ∀ {p} (fs : Fs) (perm : Perm) (now : Time), A p →
    R fs { fs with tree := fs.tree.mkdir p perm now }
  install : ∀ {p f now t'} (fs : Fs), C p → fs.tree.install p f now = .ok t' →
    R fs { fs with tree := t' }

/-- `R` relates a file system to what is left of it after a removal at a place in `A`. -/
structure Removals (A : Path → Prop) (R : Fs → Fs → Prop) : Prop where
  refl : ∀ fs, R fs fs
  removed : ∀ {p} (fs : Fs) (now : Time), A p →
    R fs { fs with tree := (fs.tree.prune p).stamp p.dropLast now }

section Changes

variable {A C : Path → Prop} {R : Fs → Fs → Prop} {fs fs' : Fs} {p : Path} {perm : Perm} {now : Time}

theorem Fs.onTree_rel {t : Except Errno Tree}
    (ht : ∀ t', t = .ok t' → R fs { fs with tree := t' }) (h : fs.onTree t = .ok fs') :
    R fs fs' := by
  cases t with
  | error e => cases h
  | ok t' =>
    cases h
    exact ht t' rfl

theorem Changes.mkdirOne (h : Changes A C R) (hA : ∀ q, fs.find false p = .ok q → A q)
    (hm : fs.mkdirOne p perm now = .ok fs') : R fs fs' := by
  unfold Fs.mkdirOne at hm
  split at hm
  · split_ifs at hm
    cases hm
    exact h.refl _
  · obtain ⟨q, hq, hm⟩ := except_bind_ok hm
    split_ifs at hm
    cases hm
    exact h.mkdir _ perm now (hA q hq)

theorem Changes.mkdirFrom (h : Changes A C R) (rest : Path) : ∀ (done : Path) {fs fs' : Fs},
    (∀ (fs₁ : Fs) r q, R fs fs₁ → r <+: done ++ rest → fs₁.find false r = .ok q → A q) →
    fs.mkdirFrom perm now done rest = .ok fs' → R fs fs' := by
  induction rest with
  | nil =>
    intro done fs fs' _ hm
    cases hm
    exact h.refl _
  | cons x rest ih =>
    intro done fs fs' hA hm
    have hnext : done ++ x :: rest = done ++ [x] ++ rest := by simp
    rw [hnext] at hA
    obtain ⟨fs₁, h₁, hm⟩ := except_bind_ok hm
    have hone := h.mkdirOne (fun q hq => hA fs _ q (h.refl _) (List.prefix_append _ _) hq) h₁
    exact h.trans hone (ih (done ++ [x]) (fun fs₂ r q h₂ => hA fs₂ r q (h.trans hone h₂)) hm)

theorem Changes.mkdirAll (h : Changes A C R)
    (hA : ∀ (fs₁ : Fs) r q, R fs fs₁ → r <+: p → fs₁.find false r = .ok q → A q)
    (hm : fs.mkdirAll p perm now = .ok fs') : R fs fs' :=
  h.mkdirFrom p [] hA hm

theorem Changes.touch (h : Changes A C R) (hA : ∀ q, fs.find true p = .ok q → A q)
    (hm : fs.touch p now = .ok fs') : R fs fs' := by
  obtain ⟨q, hq, hm⟩ := except_bind_ok hm
  split_ifs at hm
  cases hm
  exact h.stamp _ now (hA q hq)

theorem Changes.installFs (h : Changes A C R) {f : File} (hC : ∀ q, fs.find false p = .ok q → C q)
    (hm : fs.install p f now = .ok fs') : R fs fs' := by
  obtain ⟨q, hq, hm⟩ := except_bind_ok hm
  exact Fs.onTree_rel (fun t' ht => h.install fs (hC q hq) ht) hm

theorem Removals.remove (h : Removals A R) (hA : ∀ q, fs.find false p = .ok q → A q)
    (hm : fs.remove p now = .ok fs') : R fs fs' := by
  obtain ⟨q, hq, hm⟩ := except_bind_ok hm
  refine Fs.onTree_rel (fun t' ht => ?_) hm
  unfold Tree.remove at ht
  split_ifs at ht
  cases ht
  exact h.removed _ now (hA q hq)

theorem Removals.removeAll (h : Removals A R) (hA : ∀ q, fs.find false p = .ok q → A q)
    (hm : fs.removeAll p now = .ok fs') : R fs fs' := by
  unfold Fs.removeAll at hm
  split at hm
  · cases hm
    exact h.refl _
  · cases hm
  · next q hq =>
    refine Fs.onTree_rel (fun t' ht => ?_) hm
    unfold Tree.removeAll at ht
    split_ifs at ht
    · cases ht
      exact h.removed _ now (hA q hq)
    · cases ht
      exact h.refl _

end Changes

end Dockerset.Os

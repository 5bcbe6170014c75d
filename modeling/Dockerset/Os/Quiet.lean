import Dockerset.Os.Trees
import Dockerset.Os.Walk

/-!
# System calls in a quiet world

With nothing left in the plan a call acts on the two trees alone. Each lemma
reads one call as the operation on the destination tree behind it; below the
root (`p ≠ []`) it does not matter whether the root path is a link.
-/

namespace Dockerset.Os
open Go Logic

namespace World

/-- The trees below the two roots. -/
abbrev srcTree (w : World Trees) : Tree := w.disk.src.tree
abbrev dstTree (w : World Trees) : Tree := w.disk.dst.tree

/-- The destination tree has become `t`, by `n` changes. -/
def setDst (w : World Trees) (t : Tree) (n : Nat) : World Trees :=
  { w with disk := { w.disk with dst := { w.disk.dst with tree := t } }, tick := w.tick + n }

@[simp] theorem setDst_dst (w : World Trees) (t : Tree) (n : Nat) : (w.setDst t n).dstTree = t := rfl
@[simp] theorem setDst_link (w : World Trees) (t : Tree) (n : Nat) :
    (w.setDst t n).disk.dst.link = w.disk.dst.link := rfl
@[simp] theorem setDst_src (w : World Trees) (t : Tree) (n : Nat) :
    (w.setDst t n).disk.src = w.disk.src := rfl
@[simp] theorem setDst_tick (w : World Trees) (t : Tree) (n : Nat) :
    (w.setDst t n).tick = w.tick + n := rfl
@[simp] theorem setDst_clock (w : World Trees) (t : Tree) (n : Nat) :
    (w.setDst t n).clock = w.clock := rfl
@[simp] theorem setDst_plan (w : World Trees) (t : Tree) (n : Nat) :
    (w.setDst t n).plan = w.plan := rfl
@[simp] theorem setDst_tmp (w : World Trees) (t : Tree) (n : Nat) :
    (w.setDst t n).tmp = w.tmp := rfl
@[simp] theorem setDst_umask (w : World Trees) (t : Tree) (n : Nat) :
    (w.setDst t n).umask = w.umask := rfl
@[simp] theorem setDst_pathMax (w : World Trees) (t : Tree) (n : Nat) :
    (w.setDst t n).pathMax = w.pathMax := rfl

theorem setDst_setDst (w : World Trees) (t t' : Tree) (n n' : Nat) :
    (w.setDst t n).setDst t' n' = w.setDst t' (n + n') := by
  simp [setDst, Nat.add_assoc]

@[simp] theorem setDst_self (w : World Trees) : w.setDst w.dstTree 0 = w := rfl

/-- The destination tree is `t`, and a copy is under way with the temporary file `g`. -/
def copying (w : World Trees) (t : Tree) (n : Nat) (g : File) : World Trees :=
  { w.setDst t n with tmp := some g }

end World

section Rules

variable {D σ α : Type} {w : World D} {Q : α → World D → Prop} {E : Err → World D → Prop}
  {x : Sys D α} {f : D → Except Errno α}

@[simp] theorem wp_attempt_iff {Q : Except Err α → World D → Prop} :
    WP (attempt x) Q E w ↔ WP x (fun a => Q (.ok a)) (fun e => Q (.error e)) w := by
  simp only [WP, attempt, EStateM.run]
  cases x w <;> rfl

theorem preserves_attempt {I : World D → Prop} (h : Preserves I x) : Preserves I (attempt x) :=
  fun w hw => wp_attempt_iff.2 (h w hw)

@[simp] theorem wp_deferring_iff {c : Sys D Unit} : WP (deferring x c) Q E w ↔
      WP x (fun a w' => Q a (after c w')) (fun e w' => E e (after c w')) w := by
  simp only [WP, deferring, EStateM.run]
  cases x w <;> rfl

@[simp] theorem wp_liftSys_iff [HasWorld D σ] {Q : α → σ → Prop} {E : Err → σ → Prop}
    {s : σ} : WP (liftSys x) Q E s ↔
      WP x (fun a w' => Q a (HasWorld.setWorld s w')) (fun e w' => E e (HasWorld.setWorld s w'))
        (HasWorld.world s) := by
  simp only [WP, liftSys, EStateM.run]
  cases x (HasWorld.world s) <;> rfl

theorem turn_quiet (hq : w.plan = []) : w.turn = (none, w) := by
  unfold World.turn
  rw [hq]

/-- A call whose outcome is read off a pure result `x`. -/
theorem wp_syscall (hq : w.plan = []) {β : Type} {f : World D → Except Errno (α × World D)}
    {x : Except Errno β} {g : β → α × World D} (hf : f w = x.map g)
    (hok : ∀ b, x = .ok b → Q (g b).1 (g b).2) (herr : ∀ e, x = .error e → E (.errno e) w) :
    WP (syscall f) Q E w := by
  simp only [WP, syscall, EStateM.run, turn_quiet hq, hf]
  cases x with
  | ok b => exact hok b rfl
  | error e => exact herr e rfl

theorem wp_query (hq : w.plan = []) (hok : ∀ a, f w.disk = .ok a → Q a w)
    (herr : ∀ e, f w.disk = .error e → E (.errno e) w) : WP (query f) Q E w :=
  wp_syscall hq rfl hok herr

theorem query_ok (hq : w.plan = []) {a : α} (h : f w.disk = .ok a) : (query f).run w = .ok a w := by
  simp only [query, syscall, EStateM.run, turn_quiet hq, h, Except.map]

theorem query_error (hq : w.plan = []) {e : Errno}
    (h : f w.disk = .error e) : (query f).run w = .error (.errno e) w := by
  simp only [query, syscall, EStateM.run, turn_quiet hq, h, Except.map]

theorem attempt_ok {w' : World D} {a : α} (h : x.run w = .ok a w') :
    (attempt x).run w = .ok (.ok a) w' := by
  show attempt x w = _
  rw [attempt, h]

theorem attempt_error {w' : World D} {e : Err} (h : x.run w = .error e w') :
    (attempt x).run w = .ok (.error e) w' := by
  show attempt x w = _
  rw [attempt, h]

theorem liftSys_ok [HasWorld D σ] {s : σ} {w' : World D} {a : α}
    (h : x.run (HasWorld.world s) = .ok a w') :
    (liftSys x).run s = .ok a (HasWorld.setWorld s w') := by
  show liftSys x s = _
  rw [liftSys, h]

theorem liftSys_error [HasWorld D σ] {s : σ} {w' : World D} {e : Err}
    (h : x.run (HasWorld.world s) = .error e w') :
    (liftSys x).run s = .error e (HasWorld.setWorld s w') := by
  show liftSys x s = _
  rw [liftSys, h]

theorem pollCtx_run (hq : w.plan = []) : (pollCtx : Sys D Unit).run w = .ok () w := by
  simp only [pollCtx, EStateM.run, turn_quiet hq]

end Rules

section Trees

variable {w : World Trees} {p : Path} {E : Err → World Trees → Prop} {Q : Unit → World Trees → Prop}

theorem Root.lstat_eq {r : Root} (hp : p ≠ [] ∨ r.link = none) : r.lstat p = r.tree.lstat p := by
  cases p with
  | nil => simp only [Root.lstat, hp.resolve_left (not_not.2 rfl)]
  | cons x p => rfl

theorem lstat_src_ok (hq : w.plan = []) {n : Node} (hp : p ≠ [] ∨ w.disk.src.link = none)
    (h : w.srcTree.get p = some n) : (lstat ⟨.src, p⟩).run w = .ok n.info w :=
  query_ok hq ((Root.lstat_eq hp).trans (Tree.lstat_of_get h))

theorem lstat_src_link (hq : w.plan = []) {a : Attr} (hlink : w.disk.src.link = some a) :
    (lstat ⟨.src, []⟩).run w = .ok (a.info .symlink) w := by
  refine query_ok hq ?_
  change w.disk.src.lstat [] = _
  simp only [Root.lstat, hlink]

theorem lstat_src_error (hq : w.plan = []) (hp : p ≠ [] ∨ w.disk.src.link = none)
    (h : w.srcTree.get p = none) :
    (lstat ⟨.src, p⟩).run w = .error (.errno (w.srcTree.missing p)) w :=
  query_error hq ((Root.lstat_eq hp).trans (Tree.lstat_of_none h))

theorem readDir_src_run (hq : w.plan = []) (hd : w.srcTree.IsDir p) :
    (attempt (readDir ⟨.src, p⟩)).run w =
      .ok (.ok ((w.srcTree.names p).map fun x => (x, (w.srcTree.kind (p ++ [x])).getD .special))) w := by
  refine attempt_ok (query_ok hq ?_)
  change w.srcTree.readDir p = _
  obtain ⟨a, ha⟩ := Tree.isDir_iff.1 hd
  rw [Tree.readDir, ha]

/-! ### Calls on the destination tree -/

theorem mkdirAll_dst_eq (w : World Trees) (p : Path) (perm : Perm) :
    ((Disk.mkdirAll w.disk ⟨.dst, p⟩ (perm &&& ~~~w.umask) (w.clock w.tick)).map fun d =>
      ((), { w with disk := d, tick := w.tick + 1 })) =
    (w.dstTree.mkdirAll p (perm &&& ~~~w.umask) (w.clock w.tick)).map fun t => ((), w.setDst t 1) := by
  simp only [Disk.mkdirAll, Trees.onRoot, Root.onTree]
  cases w.dstTree.mkdirAll p (perm &&& ~~~w.umask) (w.clock w.tick) <;> rfl

theorem mkdirParent_dst_eq (w : World Trees) (p : Path) (perm : Perm) :
    ((Disk.mkdirParent w.disk ⟨.dst, p⟩ (perm &&& ~~~w.umask) (w.clock w.tick)).map fun d =>
      ((), { w with disk := d, tick := w.tick + 1 })) =
    (w.dstTree.mkdirParent p (perm &&& ~~~w.umask) (w.clock w.tick)).map fun t =>
      ((), w.setDst t 1) := by
  simp only [Disk.mkdirParent, Trees.onRoot, Root.onTree]
  cases w.dstTree.mkdirParent p (perm &&& ~~~w.umask) (w.clock w.tick) <;> rfl

theorem removeAll_dst_eq (w : World Trees) (hp : p ≠ []) :
    ((Disk.removeAll w.disk ⟨.dst, p⟩ (w.clock w.tick)).map fun d =>
      ((), { w with disk := d, tick := w.tick + 1 })) =
    (w.dstTree.removeAll p (w.clock w.tick)).map fun t => ((), w.setDst t 1) := by
  obtain ⟨x, xs, rfl⟩ := List.exists_cons_of_ne_nil hp
  simp only [Disk.removeAll, Trees.onRoot, Root.removeAll, Root.onTree]
  cases w.dstTree.removeAll (x :: xs) (w.clock w.tick) <;> rfl

theorem remove_dst_eq (w : World Trees) (hp : p ≠ []) :
    ((Disk.remove w.disk ⟨.dst, p⟩ (w.clock w.tick)).map fun d =>
      ((), { w with disk := d, tick := w.tick + 1 })) =
    (w.dstTree.remove p (w.clock w.tick)).map fun t => ((), w.setDst t 1) := by
  obtain ⟨x, xs, rfl⟩ := List.exists_cons_of_ne_nil hp
  simp only [Disk.remove, Trees.onRoot, Root.remove, Root.onTree]
  cases w.dstTree.remove (x :: xs) (w.clock w.tick) <;> rfl

theorem wp_mkdirAll_dst (hq : w.plan = []) {perm : Perm}
    (hok : ∀ t, w.dstTree.mkdirAll p (perm &&& ~~~w.umask) (w.clock w.tick) = .ok t →
      Q () (w.setDst t 1))
    (herr : ∀ e, w.dstTree.mkdirAll p (perm &&& ~~~w.umask) (w.clock w.tick) = .error e →
      E (.errno e) w) :
    WP (mkdirAll ⟨.dst, p⟩ perm) Q E w :=
  wp_syscall hq (mkdirAll_dst_eq w p perm) hok herr

theorem wp_mkdirParent_dst (hq : w.plan = []) {perm : Perm}
    (hok : ∀ t, w.dstTree.mkdirParent p (perm &&& ~~~w.umask) (w.clock w.tick) = .ok t →
      Q () (w.setDst t 1))
    (herr : ∀ e, w.dstTree.mkdirParent p (perm &&& ~~~w.umask) (w.clock w.tick) = .error e →
      E (.errno e) w) :
    WP (mkdirParent ⟨.dst, p⟩ perm) Q E w :=
  wp_syscall hq (mkdirParent_dst_eq w p perm) hok herr

theorem wp_removeAll_dst (hq : w.plan = []) (hp : p ≠ [])
    (hok : ∀ t, w.dstTree.removeAll p (w.clock w.tick) = .ok t → Q () (w.setDst t 1))
    (herr : ∀ e, w.dstTree.removeAll p (w.clock w.tick) = .error e → E (.errno e) w) :
    WP (removeAll ⟨.dst, p⟩) Q E w :=
  wp_syscall hq (removeAll_dst_eq w hp) hok herr

theorem wp_remove_dst (hq : w.plan = []) (hp : p ≠ [])
    (hok : ∀ t, w.dstTree.remove p (w.clock w.tick) = .ok t → Q () (w.setDst t 1))
    (herr : ∀ e, w.dstTree.remove p (w.clock w.tick) = .error e → E (.errno e) w) :
    WP (remove ⟨.dst, p⟩) Q E w :=
  wp_syscall hq (remove_dst_eq w hp) hok herr

end Trees

end Dockerset.Os

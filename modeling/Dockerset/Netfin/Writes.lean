import Dockerset.Os.Rely
import Dockerset.Netfin.SafeioQuiet

/-!
# An application that writes while the syncer works

Between any two steps of the syncer the application may leave the source in
another state (`Turn`). One of its files is watched: it stays a regular file,
and whenever it is modified it gets a modification time that it has not had
before (`Writes`).

What the syncer has learnt of the file, by whatever step, is a modification time
and some content. `Dated` says how the two go together: the time is one that the
file has given up, or it is the file's, and then the content is the file's. This
survives the application's turns, and it is all a copy needs: bytes that were
read from the version that was opened are the file's as long as the file still
has the time it was looked up with.
-/

namespace Dockerset.Netfin
open Go Os Logic

/-- What the application does between two steps of the syncer: the source as it
leaves it, how many bytes the next read may return, and what it returns if the
file has been modified under it. -/
structure Turn where
  src : Tree
  chunk : Nat
  torn : List UInt8

def Turn.event (u : Turn) : Event Trees :=
  ⟨fun d => { d with src := { d.src with tree := u.src } }, none, u.chunk, u.torn⟩

/-- Turns that keep a regular file at `p`, whose modifications give it times that
it has not had: it is `f` now, and `past` are the times it has given up. -/
def Writes (p : Path) : List Time → File → List Turn → Prop
  | _, _, [] => True
  | past, f, u :: us => ∃ g, u.src.get p = some (.file g) ∧
      ((g.mtime = f.mtime ∧ g.content = f.content ∧ Writes p past g us) ∨
        (g.mtime ∉ f.mtime :: past ∧ Writes p (f.mtime :: past) g us))

/-- The file `f` with the past `past` has become `f'` with the past `past'`. -/
def Later (past : List Time) (f : File) (past' : List Time) (f' : File) : Prop :=
  past ⊆ past' ∧ ((f'.mtime = f.mtime ∧ f'.content = f.content) ∨ f.mtime ∈ past')

/-- Content that goes with a modification time. -/
def Dated (past : List Time) (f : File) (time : Time) (content : List UInt8) : Prop :=
  time ∈ past ∨ (time = f.mtime ∧ content = f.content)

/-- The watched file in the world `w`, below a root that is no link, and all that the
application will do. -/
structure Timeline (p : Path) (past : List Time) (f : File) (w : World Trees) : Prop where
  link : w.disk.src.link = none
  file : w.srcTree.get p = some (.file f)
  fresh : f.mtime ∉ past
  plan : ∃ us : List Turn, w.plan = us.map Turn.event ∧ Writes p past f us

/-- What may be said of the watched file's versions, the destination and the
temporary file. -/
abbrev Assertion := List Time → File → Root → Option File → Prop

/-- It survives when the file is modified. -/
def Stable (Φ : Assertion) : Prop :=
  ∀ past f past' f' d t, Later past f past' f' → Φ past f d t → Φ past' f' d t

/-- `Φ` holds in the world `w`. -/
def At (p : Path) (Φ : Assertion) (w : World Trees) : Prop :=
  ∃ past f, Timeline p past f w ∧ Φ past f w.disk.dst w.tmp

section

variable {p : Path} {past : List Time} {f : File} {w w' : World Trees} {Φ Ψ : Assertion}

/-- **One turn of the application.** -/
theorem Timeline.turn (h : Timeline p past f w) : w.turn.1 = none ∧
    w.turn.2.disk.dst = w.disk.dst ∧ w.turn.2.tmp = w.tmp ∧
    ∃ past' f', Timeline p past' f' w.turn.2 ∧ Later past f past' f' := by
  obtain ⟨us, hplan, hw⟩ := h.plan
  unfold World.turn
  cases us with
  | nil =>
    rw [hplan]
    exact ⟨rfl, rfl, rfl, past, f, h, List.Subset.refl _, .inl ⟨rfl, rfl⟩⟩
  | cons u us =>
    obtain ⟨g, hg, hcase⟩ := hw
    rw [hplan]
    refine ⟨rfl, rfl, rfl, ?_⟩
    rcases hcase with ⟨htime, hcontent, hrest⟩ | ⟨hnew, hrest⟩
    · refine ⟨past, g, ⟨h.link, hg, ?_, us, rfl, hrest⟩, List.Subset.refl _, .inl ⟨htime, hcontent⟩⟩
      rw [htime]
      exact h.fresh
    · exact ⟨f.mtime :: past, g, ⟨h.link, hg, hnew, us, rfl, hrest⟩, List.subset_cons_self _ _,
        .inr List.mem_cons_self⟩

theorem At.survives (hΦ : Stable Φ) : Survives (At p Φ) := by
  rintro w ⟨past, f, hline, hw⟩
  obtain ⟨hnone, hdst, htmp, past', f', hline', hlater⟩ := hline.turn
  refine ⟨hnone, past', f', hline', ?_⟩
  rw [hdst, htmp]
  exact hΦ _ _ _ _ _ _ hlater hw

theorem At.act (h : At p Φ w) (hsrc : w'.disk.src = w.disk.src) (hplan : w'.plan = w.plan)
    (hΨ : ∀ past f, Φ past f w.disk.dst w.tmp → Ψ past f w'.disk.dst w'.tmp) : At p Ψ w' := by
  obtain ⟨past, f, hline, hw⟩ := h
  refine ⟨past, f, ⟨?_, ?_, hline.fresh, ?_⟩, hΨ past f hw⟩
  · rw [hsrc]
    exact hline.link
  · rw [World.srcTree, hsrc]
    exact hline.file
  · rw [hplan]
    exact hline.plan

theorem At.mono (h : At p Φ w) (hΨ : ∀ past f d t, Φ past f d t → Ψ past f d t) : At p Ψ w :=
  h.act rfl rfl fun past f => hΨ past f _ _

theorem Dated.later {past' : List Time} {f' : File} {time : Time} {content : List UInt8}
    (h : Dated past f time content) (hl : Later past f past' f') : Dated past' f' time content := by
  rcases h with h | ⟨rfl, rfl⟩
  · exact .inl (hl.1 h)
  · rcases hl.2 with ⟨htime, hcontent⟩ | hgone
    · exact .inr ⟨htime.symm, hcontent.symm⟩
    · exact .inl hgone

end

/-! ## Calls that leave the watched file's backup alone -/

/-- What may be said of the versions and of the shape of the watched file's backup. -/
abbrev ShapeAssertion := List Time → File → Option Node → Prop

def Lasting (φ : ShapeAssertion) : Prop :=
  ∀ past f past' f' s, Later past f past' f' → φ past f s → φ past' f' s

/-- `φ` of the backup at `p`, and no copy is under way. -/
def Shaped (p : Path) (φ : ShapeAssertion) : Assertion := fun past f d t =>
  t = none ∧ φ past f (d.tree.shape p)

theorem Lasting.shaped {φ : ShapeAssertion} (h : Lasting φ) (p : Path) : Stable (Shaped p φ) :=
  fun past f past' f' _ _ hl hs => ⟨hs.1, h past f past' f' _ hl hs.2⟩

section Calls

variable {p q : Path} {w : World Trees} {Φ : Assertion} {φ ψ : ShapeAssertion} {α : Type}

theorem preserves_query (hΦ : Stable Φ) (g : Trees → Except Errno α) : Preserves (At p Φ) (query g) :=
  fun _ h => (At.survives hΦ).wp_query h (fun _ _ h₁ _ => h₁) fun _ _ h₁ _ => h₁

theorem preserves_pollCtx (hΦ : Stable Φ) : Preserves (At p Φ) pollCtx :=
  fun _ h => (At.survives hΦ).wp_pollCtx h fun _ h₁ => h₁

/-- A directory that is there, or is missing as a whole, can be synced. -/
theorem wp_fsyncDir_among {E : Err → World Trees → Prop} (hΦ : Stable Φ) (h : At p Φ w)
    (hpar : ∀ past f d t, Φ past f d t → d.tree.Has q.dropLast ∨ d.tree.missing q = .ENOENT) :
    WP (fsyncDir ⟨.dst, q⟩) (fun _ => At p Φ) E w := by
  rw [fsyncDir, WP.bind_iff, wp_attempt_iff]
  refine (At.survives hΦ).wp_query h (fun w₁ _ h₁ _ => ?_) fun w₁ e h₁ he => ?_
  · simp only [WP.bind_iff, wp_attempt_iff]
    exact (At.survives hΦ).wp_syscall h₁ (x := fun _ => .ok ()) (g := fun w₂ _ => ((), w₂))
      (fun _ => rfl) (fun _ _ h₂ _ => h₂) fun _ _ _ he => by cases he
  · obtain ⟨past, f, -, hw⟩ := id h₁
    change w₁.dstTree.openParent q = _ at he
    rw [Tree.openParent] at he
    split at he
    · cases he
    · next hno =>
      cases he
      rw [(hpar past f _ _ hw).resolve_left fun hh => hno (.inr hh)]
      exact h₁

theorem preserves_symlinkBelow (hΦ : Stable Φ) (side : Side) (rest : Path) :
    ∀ cur, Preserves (At p Φ) (symlinkBelow side cur rest) := by
  induction rest with
  | nil => exact fun _ => preserves_pure _
  | cons x rest ih =>
    intro cur
    refine preserves_bind (preserves_attempt (preserves_query hΦ _)) fun r => ?_
    cases r with
    | error e => exact preserves_ite (fun _ => preserves_pure _) fun _ => preserves_throw _
    | ok info => exact preserves_ite (fun _ => preserves_pure _) fun _ => ih _

/-- A call that changes the destination tree. -/
theorem wp_onDst (hφ : Lasting φ) (h : At p (Shaped p φ) w)
    {f : World Trees → Except Errno (Unit × World Trees)} {x : World Trees → Except Errno Tree}
    (hf : ∀ w₁, f w₁ = (x w₁).map fun t => ((), w₁.setDst t 1))
    (hok : ∀ w₁ t past f, x w₁ = .ok t → φ past f (w₁.dstTree.shape p) → ψ past f (t.shape p)) :
    WP (syscall f) (fun _ => At p (Shaped p ψ)) (fun _ => At p (Shaped p φ)) w := by
  refine (At.survives (hφ.shaped p)).wp_syscall h hf (fun w₁ t h₁ hx => ?_) fun _ _ h₁ _ => h₁
  exact h₁.act rfl rfl fun past f hs => ⟨hs.1, hok w₁ t past f hx hs.2⟩

theorem preserves_mkdirAll (hφ : Lasting φ) (perm : Perm) (hq : ¬ p <+: q) :
    Preserves (At p (Shaped p φ)) (mkdirAll ⟨.dst, q⟩ perm) := by
  intro w h
  refine wp_onDst hφ h (fun w₁ => mkdirAll_dst_eq w₁ q perm) fun w₁ t past f hx hs => ?_
  rw [(Tree.mkdirAll_spec (Set.mem_univ _) hx).shape, if_neg fun hc => hq hc.1]
  exact hs

/-! ## Removing a backup -/

/-- **`os.RemoveAll`** and **`RemovePath`** of `q`. -/
theorem wp_removeAll_among (hφ : Lasting φ) (hq : q ≠ []) (h : At p (Shaped p φ) w)
    (hok : ∀ past f s, φ past f s → ψ past f (if q <+: p then none else s)) :
    WP (removeAll ⟨.dst, q⟩) (fun _ => At p (Shaped p ψ)) (fun _ => At p (Shaped p φ)) w := by
  refine wp_onDst hφ h (fun w₁ => removeAll_dst_eq w₁ hq) fun w₁ t past f hx hs => ?_
  rw [(Tree.removeAll_spec (Set.mem_univ _) hx).shape]
  exact hok past f _ hs

theorem wp_removePath_among (hφ : Lasting φ) (hψ : Lasting ψ) (hq : q ≠ []) (h : At p (Shaped p φ) w)
    (hok : ∀ past f s, φ past f s → ψ past f (if q <+: p then none else s)) :
    WP (removePath ⟨.dst, q⟩ false) (fun _ => At p (Shaped p ψ)) (fun _ => At p (Shaped p φ)) w := by
  simp only [removePath, Bool.false_eq_true, if_false, WP.bind_iff]
  refine (At.survives (hφ.shaped p)).wp_syscall h (fun w₁ => removeAll_dst_eq w₁ hq)
    (fun w₁ t h₁ hx => ?_) fun _ _ h₁ _ => h₁
  have hpruned := Tree.removeAll_spec (Set.mem_univ _) hx
  let Φ : Assertion := fun past f d t => Shaped p ψ past f d t ∧
    (d.tree.Has q.dropLast ∨ d.tree.missing q = .ENOENT)
  have hΦ : Stable Φ := fun _ _ _ _ _ _ hl hw => ⟨hψ.shaped p _ _ _ _ _ _ hl hw.1, hw.2⟩
  have h₂ : At p Φ (w₁.setDst t 1) := by
    refine h₁.act rfl rfl fun past f hs => ⟨⟨hs.1, ?_⟩, Tree.removeAll_parent hq hx⟩
    change ψ past f (t.shape p)
    rw [hpruned.shape]
    exact hok past f _ hs.2
  exact (wp_fsyncDir_among hΦ h₂ fun _ _ _ _ hw => hw.2).mono
    (fun _ _ h => h.mono fun _ _ _ _ hw => hw.1) fun _ _ h => h

/-- **`os.Remove`** of `q`: there was nothing below it. -/
theorem wp_remove_among (hφ : Lasting φ) (hq : q ≠ []) (h : At p (Shaped p φ) w)
    (hok : ∀ past f s, φ past f s → ψ past f (if q = p then none else s)) :
    WP (remove ⟨.dst, q⟩) (fun _ => At p (Shaped p ψ)) (fun _ => At p (Shaped p φ)) w := by
  refine wp_onDst hφ h (fun w₁ => remove_dst_eq w₁ hq) fun w₁ t past f hx hs => ?_
  rw [Tree.remove_shape hx]
  exact hok past f _ hs

end Calls

/-! ## Copying among writes -/

/-- What may be said of the versions and the temporary file. -/
abbrev TempAssertion := List Time → File → File → Prop

/-- A copy to `q` is under way, with `P` of its temporary file. -/
def Copying (p q : Path) (φ : ShapeAssertion) (P : TempAssertion) : Assertion := fun past f d t =>
  d.tree.IsDir q.dropLast ∧ φ past f (d.tree.shape p) ∧ ∃ g, t = some g ∧ P past f g

/-- `time` was the watched file's when it was looked up, and `opened` is the file
of which `buf` has been read, if it is the watched one that is copied. -/
def ReadFrom (p q : Path) (time : Time) (opened : Option File) (buf : List UInt8) (past : List Time)
    (f : File) : Prop :=
  q = p → time ∈ past ∨ (time = f.mtime ∧ (∃ f₀, opened = some f₀ ∧ f₀.mtime = f.mtime) ∧ buf <+: f.content)

section Copy

variable {p q : Path} {w : World Trees} {φ ψ χ : ShapeAssertion} {P R : TempAssertion} {time : Time}
  {mode : Perm} {opened : Option File} {buf : List UInt8} {past past' : List Time} {f f' : File}

theorem ReadFrom.later (h : ReadFrom p q time opened buf past f) (hl : Later past f past' f') :
    ReadFrom p q time opened buf past' f' := by
  intro hqp
  rcases h hqp with h | ⟨htime, hopened, hbuf⟩
  · exact .inl (hl.1 h)
  · rcases hl.2 with ⟨hsame, hcontent⟩ | hgone
    · rw [hsame, hcontent]
      exact .inr ⟨htime, hopened, hbuf⟩
    · exact .inl (htime ▸ hgone)

theorem copying_stable (hφ : Lasting φ)
    (hP : ∀ past f past' f' g, Later past f past' f' → P past f g → P past' f' g) :
    Stable (Copying p q φ P) := by
  rintro past f past' f' d t hl ⟨hdir, hs, g, ht, hg⟩
  exact ⟨hdir, hφ _ _ _ _ _ hl hs, g, ht, hP _ _ _ _ _ hl hg⟩

theorem wp_createTemp_among (hφ : Lasting φ) (hq : q ≠ []) (h : At p (Shaped p φ) w) :
    WP (createTemp ⟨.dst, q⟩) (fun _ => At p (Copying p q φ fun _ _ _ => True))
      (fun _ => At p (Shaped p φ)) w := by
  refine (At.survives (hφ.shaped p)).wp_syscall h (fun _ => rfl) (fun w₁ d h₁ hx => ?_)
    fun _ _ h₁ _ => h₁
  by_cases hdir : w₁.dstTree.IsDir q.dropLast
  · rw [touchParent_dst hq hdir] at hx
    cases hx
    refine h₁.act rfl rfl fun past f hs => ⟨Tree.isDir_stamp.2 hdir, ?_, _, rfl, trivial⟩
    change φ past f ((w₁.dstTree.stamp q.dropLast (w₁.clock w₁.tick)).shape p)
    rw [Tree.shape_stamp]
    exact hs.2
  · change w₁.disk.onRoot .dst _ = _ at hx
    simp only [Trees.onRoot, Root.onTree, Tree.touchParent, if_neg hq, if_neg hdir] at hx
    split at hx <;> cases hx

theorem wp_onTemp_among {E : Err → World Trees → Prop} (step : File → File)
    (hΦ : Stable (Copying p q φ P)) (h : At p (Copying p q φ P) w)
    (hstep : ∀ past f g, P past f g → R past f (step g)) :
    WP (onTemp step) (fun _ => At p (Copying p q φ R)) E w := by
  refine (At.survives hΦ).wp_syscall h (x := fun _ => .ok ())
    (g := fun w₁ _ => ((), { w₁ with tmp := w₁.tmp.map step })) (fun _ => rfl) (fun w₁ _ h₁ _ => ?_)
    fun _ _ _ he => by cases he
  refine h₁.act rfl rfl ?_
  rintro past f ⟨hdir, hs, g, ht, hg⟩
  exact ⟨hdir, hs, step g, by rw [ht]; rfl, hstep past f g hg⟩

/-- The destination tree after the rename. -/
def renamed (q : Path) (w : World Trees) : Except Errno Tree :=
  match w.tmp with
  | none => .error .ENOENT
  | some g => w.dstTree.install q g (w.clock w.tick)

theorem rename_eq (hq : q ≠ []) (w : World Trees) :
    (match w.tmp with
      | none => .error .ENOENT
      | some g => (Disk.install w.disk ⟨.dst, q⟩ g (w.clock w.tick)).map fun d =>
        ((), { w with disk := d, tick := w.tick + 1, tmp := none })) =
    (renamed q w).map fun t => ((), { w.setDst t 1 with tmp := none }) := by
  obtain ⟨x, xs, rfl⟩ := List.exists_cons_of_ne_nil hq
  unfold renamed
  cases w.tmp with
  | none => rfl
  | some g =>
    simp only [Disk.install, Trees.onRoot, Root.install, Root.onTree]
    cases w.dstTree.install (x :: xs) g (w.clock w.tick) <;> rfl

/-- **The rename**: the finished file is at `q`. -/
theorem wp_rename_among (hΦ : Stable (Copying p q φ P)) (hq : q ≠ []) (h : At p (Copying p q φ P) w)
    (hinst : ∀ past f s g, φ past f s → P past f g → ψ past f (if p = q then some (.file g) else s)) :
    WP (rename ⟨.dst, q⟩)
      (fun _ => At p fun past f d t => Shaped p ψ past f d t ∧ d.tree.Has q.dropLast)
      (fun _ => At p (Copying p q φ P)) w := by
  refine (At.survives hΦ).wp_syscall h (x := renamed q)
    (g := fun w₁ t => ((), { w₁.setDst t 1 with tmp := none })) (rename_eq hq) (fun w₁ t h₁ hx => ?_)
    fun _ _ h₁ _ => h₁
  refine h₁.act rfl rfl ?_
  rintro past f ⟨hdir, hs, g, ht, hg⟩
  rw [renamed, ht] at hx
  have hinstalled := Tree.install_spec (Set.mem_univ _) hx
  refine ⟨⟨rfl, ?_⟩, hinstalled.has hdir.has⟩
  change ψ past f (t.shape p)
  rw [hinstalled.shape]
  exact hinst past f _ g hs hg

/-- **Removing the temporary file**, if there still is one. -/
theorem after_removeTemp_among (hφ : Lasting φ) (hq : q ≠ [])
    (h : At p (Shaped p φ) w ∨ At p (Copying p q φ fun _ _ _ => True) w) :
    At p (Shaped p φ) (after (removeTemp ⟨.dst, q⟩) w) := by
  let Φ : Assertion := fun past f d t =>
    (t = none ∨ d.tree.IsDir q.dropLast) ∧ φ past f (d.tree.shape p)
  have hΦ : Stable Φ := fun _ _ _ _ _ _ hl hw => ⟨hw.1, hφ _ _ _ _ _ hl hw.2⟩
  have h' : At p Φ w := by
    rcases h with h | h
    · exact h.mono fun _ _ _ _ hw => ⟨.inl hw.1, hw.2⟩
    · exact h.mono fun _ _ _ _ hw => ⟨.inr hw.1, hw.2.1⟩
  apply WP.after
  obtain ⟨hnone, hturn⟩ := At.survives hΦ w h'
  have hsplit : w.turn = (none, w.turn.2) := Prod.ext hnone rfl
  unfold WP
  simp only [removeTemp, syscall, EStateM.run]
  rw [hsplit]
  dsimp only
  cases htmp : w.turn.2.tmp with
  | none => exact hturn.act rfl rfl fun past f hw => ⟨htmp, hw.2⟩
  | some g =>
    obtain ⟨past, f, hline, hw⟩ := id hturn
    have hdir : w.turn.2.dstTree.IsDir q.dropLast := hw.1.resolve_left (by rw [htmp]; simp)
    dsimp only
    rw [touchParent_dst hq hdir]
    refine hturn.act rfl rfl fun past f hw => ⟨rfl, ?_⟩
    change φ past f ((w.turn.2.dstTree.stamp q.dropLast _).shape p)
    rw [Tree.shape_stamp]
    exact hw.2

/-- A read from the watched file extends what has been read of it, and one that
returns nothing has reached its end. -/
theorem ReadFrom.read (h : ReadFrom p q time opened buf past f) {d : Trees} (ev : Event Trees)
    (hfile : d.src.tree.get p = some (.file f)) :
    (Handle.readAt ⟨⟨.src, q⟩, opened⟩ d buf.length ev = [] → q = p → Dated past f time buf) ∧
      ReadFrom p q time opened (buf ++ Handle.readAt ⟨⟨.src, q⟩, opened⟩ d buf.length ev) past f := by
  have hread : q = p → time ∉ past →
      Handle.readAt ⟨⟨.src, q⟩, opened⟩ d buf.length ev =
        (f.content.drop buf.length).take (ev.chunk + 1) := by
    intro hqp hnew
    obtain ⟨-, ⟨f₀, rfl, hf₀⟩, -⟩ := (h hqp).resolve_left hnew
    have hopen : Disk.openFile d ⟨.src, q⟩ = .ok (some f) := by
      change d.src.tree.openFile q = _
      rw [hqp, Tree.openFile, hfile]
    simp only [Handle.readAt, Handle.fresh, hopen, hf₀, if_true]
  constructor
  · intro hnil hqp
    by_cases hold : time ∈ past
    · exact .inl hold
    · obtain ⟨htime, -, hbuf⟩ := (h hqp).resolve_left hold
      rw [hread hqp hold, List.take_eq_nil_iff] at hnil
      have hlen := List.drop_eq_nil_iff.1 (hnil.resolve_left (by omega))
      exact .inr ⟨htime, hbuf.eq_of_length (le_antisymm hbuf.length_le hlen)⟩
  · intro hqp
    by_cases hold : time ∈ past
    · exact .inl hold
    · obtain ⟨htime, hopened, hbuf⟩ := (h hqp).resolve_left hold
      refine .inr ⟨htime, hopened, ?_⟩
      rw [hread hqp hold]
      obtain ⟨rest, hrest⟩ := hbuf
      rw [← hrest, List.drop_left]
      exact (List.prefix_append_right_inj buf).2 (List.take_prefix _ _)

/-- When the application has stopped, the rest is read at once. -/
theorem ReadFrom.finish (h : ReadFrom p q time opened buf past f) {d : Trees}
    (hfile : d.src.tree.get p = some (.file f)) (hqp : q = p) :
    Dated past f time (buf ++ Handle.rest ⟨⟨.src, q⟩, opened⟩ d buf.length) := by
  rcases h hqp with h | ⟨htime, -, rest, hrest⟩
  · exact .inl h
  · have hopen : Disk.openFile d ⟨.src, q⟩ = .ok (some f) := by
      change d.src.tree.openFile q = _
      rw [hqp, Tree.openFile, hfile]
    refine .inr ⟨htime, ?_⟩
    simp only [Handle.rest, hopen]
    rw [← hrest, List.drop_left]

/-- **`io.Copy`** of the watched file: its bytes go with the time it was looked up
with. -/
theorem wp_ioCopy_among (hφ : Lasting φ)
    (hopen : ∀ past f s, φ past f s → ReadFrom p q time opened [] past f)
    (h : At p (Copying p q φ fun _ _ _ => True) w) :
    WP (ioCopy ⟨⟨.src, q⟩, opened⟩)
      (fun _ => At p (Copying p q φ fun past f g => q = p → Dated past f time g.content))
      (fun _ => At p (Copying p q φ fun _ _ _ => True)) w := by
  let J (buf : List UInt8) : Assertion := fun past f d t =>
    Copying p q φ (fun _ _ _ => True) past f d t ∧ ReadFrom p q time opened buf past f
  have hcopying : Stable (Copying p q φ fun _ _ _ => True) := copying_stable hφ fun _ _ _ _ _ _ h => h
  have hJ : ∀ buf, Stable (J buf) := fun buf _ _ _ _ _ _ hl hw =>
    ⟨hcopying _ _ _ _ _ _ hl hw.1, hw.2.later hl⟩
  refine (Os.wp_ioCopy (J := fun buf => At p (J buf)) (B := fun bytes => At p fun past f d t =>
    Copying p q φ (fun _ _ _ => True) past f d t ∧ (q = p → Dated past f time bytes)) ?_ ?_ ?_).mono ?_ ?_
  · exact h.mono fun past f d t hw => ⟨hw, hopen past f _ hw.2.1⟩
  · intro buf w₁ ev plan hplan h₁
    obtain ⟨hnone, past, f, hline, hcopy, hread⟩ := At.survives (hJ buf) w₁ h₁
    rw [World.turn, hplan] at hnone hline hcopy
    obtain ⟨hend, hmore⟩ := hread.read ev hline.file
    exact ⟨hnone, fun hnil => ⟨past, f, hline, hcopy, hend hnil⟩, fun _ => ⟨past, f, hline, hcopy, hmore⟩⟩
  · rintro buf w₁ - ⟨past, f, hline, hcopy, hread⟩
    exact ⟨past, f, hline, hcopy, fun hqp => hread.finish hline.file hqp⟩
  · rintro _ _ ⟨bytes, w₁, h₁, rfl⟩
    refine h₁.act rfl rfl ?_
    rintro past f ⟨⟨hdir, hs, g, ht, -⟩, hdated⟩
    exact ⟨hdir, hs, { g with content := bytes }, by rw [ht]; rfl, hdated⟩
  · rintro _ _ ⟨-, rfl⟩
    exact h

/-- The file is opened: if it is the watched one, it is the version of now. -/
theorem wp_openFile_among (hφ : Lasting φ) (h : At p (Shaped p φ) w)
    (htime : q = p → ∀ past f s, φ past f s → time ∈ past ∨ time = f.mtime) :
    WP (openFile ⟨.src, q⟩)
      (fun h w' => ∃ opened, h = ⟨⟨.src, q⟩, opened⟩ ∧
        At p (Shaped p fun past f s => φ past f s ∧ ReadFrom p q time opened [] past f) w')
      (fun _ => At p (Shaped p φ)) w := by
  refine (At.survives (hφ.shaped p)).wp_query h (fun w₁ a h₁ hx => ?_) fun _ _ h₁ _ => h₁
  cases hd : Disk.openFile w₁.disk ⟨.src, q⟩ with
  | error e =>
    rw [hd] at hx
    cases hx
  | ok opened =>
    rw [hd] at hx
    cases hx
    obtain ⟨past, f, hline, htmp, hs⟩ := h₁
    refine ⟨opened, rfl, past, f, hline, htmp, hs, fun hqp => ?_⟩
    change w₁.srcTree.openFile q = _ at hd
    rw [hqp, Tree.openFile, hline.file] at hd
    cases hd
    refine (htime hqp past f _ hs).imp_right fun ht => ⟨ht, ⟨f, rfl, rfl⟩, List.nil_prefix⟩

/-- **`AtomicCopyFile`** of `q` among writes to `p`. If `q` is `p`, the copy's content
goes with the time that the caller has looked up. -/
theorem wp_atomicCopyFile_among (hφ : Lasting φ) (hψ : Lasting ψ) (hq : q ≠ [])
    (hpq : ¬ p <+: q.dropLast) (h : At p (Shaped p φ) w)
    (htime : q = p → ∀ past f s, φ past f s → time ∈ past ∨ time = f.mtime)
    (hinst : ∀ past f s bytes, φ past f s → (q = p → Dated past f time bytes) →
      ψ past f (if p = q then some (.file ⟨mode, time, bytes⟩) else s)) :
    WP (atomicCopyFile ⟨.src, q⟩ ⟨.dst, q⟩ mode time false)
      (fun _ => At p (Shaped p ψ)) (fun _ => At p (Shaped p φ)) w := by
  simp only [atomicCopyFile, Bool.false_eq_true, if_false, WP.bind_iff]
  refine (wp_openFile_among hφ h htime).mono ?_ fun _ _ h => h
  rintro _ w₁ ⟨opened, rfl, h₁⟩
  let φ' : ShapeAssertion := fun past f s => φ past f s ∧ ReadFrom p q time opened [] past f
  have hφ' : Lasting φ' := fun _ _ _ _ _ hl hs => ⟨hφ _ _ _ _ _ hl hs.1, hs.2.later hl⟩
  have hback : ∀ {w'}, At p (Shaped p φ') w' → At p (Shaped p φ) w' := fun h =>
    h.mono fun _ _ _ _ hw => ⟨hw.1, hw.2.1⟩
  refine (wp_onDst (ψ := φ') hφ' h₁ (fun w₁ => mkdirParent_dst_eq w₁ q 0o755) ?_).mono ?_
    fun _ _ h => hback h
  · intro w₂ t past f hx hs
    rw [Tree.mkdirParent, if_neg hq] at hx
    rw [(Tree.mkdirAll_spec (Set.mem_univ _) hx).shape, if_neg fun hc => hpq hc.1]
    exact hs
  rintro _ w₂ h₂
  refine (wp_createTemp_among hφ' hq h₂).mono ?_ fun _ _ h => hback h
  rintro _ w₃ h₃
  rw [wp_deferring_iff]
  -- until the rename the temporary file is there to be removed
  have hfail : ∀ {P : TempAssertion} {w'}, At p (Copying p q φ' P) w' →
      At p (Shaped p φ) (after (removeTemp ⟨.dst, q⟩) w') := by
    intro P w' h'
    refine hback (after_removeTemp_among hφ' hq (.inr (h'.mono ?_)))
    rintro past f d t ⟨hdir, hs, g, ht, -⟩
    exact ⟨hdir, hs, g, ht, trivial⟩
  have hdated : ∀ past f past' f' (g : File), Later past f past' f' →
      (q = p → Dated past f time g.content) → q = p → Dated past' f' time g.content :=
    fun _ _ _ _ _ hl hd hqp => (hd hqp).later hl
  simp only [WP.bind_iff]
  refine (wp_ioCopy_among hφ' (fun _ _ _ hs => hs.2) h₃).mono ?_ fun _ _ h => hfail h
  rintro _ w₄ h₄
  refine (wp_onTemp_among _ (R := fun past f g => (q = p → Dated past f time g.content) ∧ g.perm = mode)
    (copying_stable hφ' hdated) h₄ ?_).mono ?_ fun _ _ h => h
  · exact fun _ _ _ hg => ⟨hg, rfl⟩
  rintro _ w₅ h₅
  let done : TempAssertion := fun past f g =>
    (q = p → Dated past f time g.content) ∧ g.perm = mode ∧ g.mtime = time
  have hdone : Stable (Copying p q φ' done) :=
    copying_stable hφ' fun _ _ _ _ _ hl hg => ⟨hdated _ _ _ _ _ hl hg.1, hg.2⟩
  refine (wp_onTemp_among _ (R := done)
    (copying_stable hφ' fun _ _ _ _ _ hl hg => ⟨hdated _ _ _ _ _ hl hg.1, hg.2⟩) h₅ ?_).mono ?_
    fun _ _ h => h
  · exact fun _ _ _ hg => ⟨hg.1, hg.2, rfl⟩
  rintro _ w₆ h₆
  refine (wp_onTemp_among id (R := done) hdone h₆ fun _ _ _ hg => hg).mono ?_ fun _ _ h => h
  rintro _ w₇ h₇
  refine (wp_onTemp_among id (R := done) hdone h₇ fun _ _ _ hg => hg).mono ?_ fun _ _ h => h
  rintro _ w₈ h₈
  refine (wp_rename_among (ψ := ψ) hdone hq h₈ ?_).mono ?_ fun _ _ h => hfail h
  · rintro past f s ⟨perm, mtime, bytes⟩ hs ⟨hd, rfl, rfl⟩
    exact hinst past f s bytes hs.1 hd
  rintro _ w₉ h₉
  refine (wp_fsyncDir_among (fun _ _ _ _ _ _ hl hw => ⟨hψ.shaped p _ _ _ _ _ _ hl hw.1, hw.2⟩) h₉
    fun _ _ _ _ hw => .inl hw.2).mono ?_ fun _ _ h => h
  rintro _ w₁₀ h₁₀
  exact after_removeTemp_among hψ hq (.inl (h₁₀.mono fun _ _ _ _ hw => hw.1))

end Copy

end Dockerset.Netfin

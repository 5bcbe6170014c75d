import Dockerset.Netfin.KindChange
import Dockerset.Netfin.StepInv

/-!
# The state map never claims more than the backup holds

`Backed` says that every remembered file is a regular file of the destination
with the remembered metadata, and every remembered directory a directory. Every
call keeps it, whether it returns nil or fails, as long as nothing but a regular
file passes for the backup of a file and `SyncRel` is not called on another spelling
of the root than `"."`.
-/

namespace Dockerset.Netfin
open Go Os Logic

/-- The destination has at `q` what is remembered of it. -/
def Holds (t : Tree) (q : Path) (st : PathState) : Prop :=
  match st.kind with
  | .dir => t.IsDir q
  | .file => ∃ f, t.get q = some (.file f) ∧ f.perm = st.mode ∧ f.content.length = st.size ∧
      f.mtime = st.modTime

theorem Holds.has {t : Tree} {q : Path} {st : PathState} (h : Holds t q st) : t.Has q := by
  unfold Holds at h
  split at h
  · exact h.has
  · obtain ⟨f, hf, -⟩ := h
    exact Tree.has_of_get hf

theorem Holds.of_shape {t t' : Tree} {q : Path} {st : PathState} (h : Holds t q st)
    (hs : t'.shape q = t.shape q) : Holds t' q st := by
  unfold Holds at h ⊢
  split at h
  · rw [Tree.isDir_iff_shape, hs, ← Tree.isDir_iff_shape]
    exact h
  · obtain ⟨f, hf, hm⟩ := h
    exact ⟨f, Tree.get_eq_of_shape hs hf (by simp), hm⟩

theorem holds_fileState {t : Tree} {q : Path} {f g : File} (hg : t.get q = some (.file g))
    (h1 : g.perm = f.perm) (h2 : g.content.length = f.content.length) (h3 : g.mtime = f.mtime) :
    Holds t q (fileState f) := ⟨g, hg, h1, h2, h3⟩

/-- The entries whose kind is in `K` are backed by the destination, and the root has
no entry. -/
structure Backed (K : Set PathKind) (t : Tree) (m : StateMap) : Prop where
  root : m.lookup [] = none
  holds : ∀ q st, m.lookup q = some st → st.kind ∈ K → Holds t q st

section

variable {K : Set PathKind} {S : Tree} {ex : Path → Bool} {T : Set Time} {U : Perm} {rm : Bool} {p q : Path}
  {t₀ t t' : Tree} {m₀ m m' : StateMap} {l : List Path}

theorem backed_iff : Backed K t m ↔ Vouched (fun t q st => st.kind ∈ K → Holds t q st) t m :=
  ⟨fun h => ⟨h.root, h.holds⟩, fun h => ⟨h.root, h.holds⟩⟩

theorem steadfast_holds (K : Set PathKind) : Steadfast fun t q st => st.kind ∈ K → Holds t q st := by
  intro t t' q st hs h hk
  exact (h hk).of_shape (hs (h hk).has)

theorem Grown.backed (hg : Grown t t') (h : Backed K t m) : Backed K t' m :=
  backed_iff.2 (hg.vouched (steadfast_holds K) (backed_iff.1 h))

theorem Swept.backed {A : Path → Prop} (hs : Swept T A t t' m m') (h : Backed K t m) :
    Backed K t' m' :=
  backed_iff.2 (hs.vouched (steadfast_holds K) (backed_iff.1 h))

/-- One visit, if what passes for a backup of the visited file is a regular file. -/
theorem Touch.backed (ht : Touch S T U rm q t m t' m') (h : Backed K t m) (hq : q ≠ [])
    (hfile : .file ∈ K → ∀ f, S.get q = some (.file f) → Reports t q f.info →
      t.kind q = some .file) : Backed K t' m' := by
  refine backed_iff.2 (ht.vouched (steadfast_holds K) hq (backed_iff.1 h) ?_ ?_ ?_)
  · exact fun a _ hmade _ => hmade.isDir List.prefix_rfl
  · intro f hS hr hk
    obtain ⟨n, hn, -, h1, h2, h3⟩ := reports_iff.1 hr
    have hkind := hfile hk f hS hr
    rw [Tree.kind, hn] at hkind
    obtain ⟨g, rfl⟩ := Node.kind_eq_file.1 (Option.some.inj hkind)
    exact holds_fileState hn h1 h2 h3
  · exact fun f _ hg _ => holds_fileState hg rfl rfl rfl

/-- Whatever reports the metadata of the file of `S` at `q` is a regular file. -/
def Genuine (S : Tree) (q : Path) (t : Tree) : Prop :=
  ∀ f, S.get q = some (.file f) → Reports t q f.info → t.kind q = some .file

/-- **The state map stays backed.** -/
theorem stepInv_backed (T : Set Time) (K : Set PathKind) : StepInv T Genuine (Backed K) where
  touch ht hq hun h := ht.backed h hq fun _ f hf hr => hun f hf hr
  swept hs h := hs.backed h

/-- Directories need nothing of what passes for a file. -/
theorem stepInv_dirs (T : Set Time) : StepInv T Unasked (Backed {.dir}) where
  touch ht hq _ h := ht.backed h hq fun hk => by cases hk
  swept hs h := hs.backed h

end

/-- Nothing in the destination but a regular file passes for the backup of a file. -/
def Unmistakable (r : Run Trees) : Prop :=
  ∀ q f, r.src.get q = some (.file f) → Reports r.dst q f.info → r.dst.kind q = some .file

instance (r : Run Trees) : Decidable (Unmistakable r) :=
  decidable_of_iff (∀ q n, r.src.get q = some n → n.kind = .file → Reports r.dst q n.info →
    r.dst.kind q = some .file) <| by
    constructor
    · intro h q f hf
      exact h q _ hf rfl
    · intro h q n hn hk
      obtain ⟨f, rfl⟩ := Node.kind_eq_file.1 hk
      exact h q f hn

section

variable {r r' : Run Trees} {c : Call}

theorem Unmistakable.meets (h : Unmistakable r) : r.Meets Genuine := by
  have look : ∀ q t, t.get q = r.dst.get q → Genuine r.src q t := by
    intro q t ht f hf hr
    rw [Tree.kind, ht]
    exact h q f hf (hr.congr ht.symm)
  intro q t hq ht
  refine ⟨look q t ht, fun f hf => look q t ht f ?_⟩
  unfold Run.walked at hf
  split at hf
  · rw [Tree.get_leaf, if_neg hq] at hf
    cases hf
  · exact hf

/-- A call with any outcome, no `SyncRel` on another spelling of the root, where
nothing but a regular file passes for the backup of a file. -/
structure SoundStep (c : Call) (r r' : Run Trees) : Prop where
  root : c.AvoidsRoot
  unmistakable : Unmistakable r
  run : after c.exec r = r'

/-- What holds along sound histories. -/
structure SoundState (r : Run Trees) : Prop where
  quiet : r.Quiet
  backed : Backed .univ r.dst r.state
  linkFree : r.dst.LinkFree

theorem SoundStep.keeps (h : SoundStep c r r') (hr : SoundState r) : SoundState r' := by
  obtain ⟨hroot, hun, rfl⟩ := h
  have hi : r.Idle := ⟨hr.quiet, hr.backed.root⟩
  obtain ⟨hf, hb⟩ := (stepInv_backed r.times .univ).under.after_call (fun hg h => hg.backed h)
    hi hroot hun.meets hr.backed
  obtain ⟨-, hl⟩ := (stepInv_linkFree r.times).under.after_call (fun hg h => hg.linkFree h)
    hi hroot r.meets_unasked hr.linkFree
  exact ⟨hf.quiet hr.quiet, hb, hl⟩

end

/-- **In every state that sound calls and edits of the source can reach, the state
map claims no more than the backup holds**, if the destination had no links. It has
none then either. -/
theorem state_backed {w : World Trees} {patterns : List Str} {r : Run Trees} (hplan : w.plan = [])
    (htmp : w.tmp = none) (hfree : w.dstTree.LinkFree)
    (hist : History SoundStep (freshRun w patterns) r) :
    r.dst.LinkFree ∧ ∀ q st, r.state.lookup q = some st → Holds r.dst q st := by
  have hr : SoundState r := by
    refine hist.inv SoundState ⟨⟨hplan, htmp, rfl⟩, ⟨rfl, ?_⟩, hfree⟩
      (fun r S h => ⟨⟨h.quiet.plan, h.quiet.tmp, h.quiet.live⟩, h.backed, h.linkFree⟩)
      fun c r r' h hc => hc.keeps h
    intro q st hq
    cases hq
  exact ⟨hr.linkFree, fun q st hq => hr.backed.holds q st hq trivial⟩

/-- `SyncRel("")` is not `SyncRel(".")`: it remembers the root as a directory, which
no walk ever sees. The next `Reconcile` removes the destination, and the state map
still remembers the file `a`. -/
theorem state_outlives_backup : copyWorld.dstTree.LinkFree ∧ ∃ r st,
    History (fun c r r' => Unmistakable r ∧ c.exec.run r = .ok () r') (freshRun copyWorld []) r ∧
      r.state.lookup [nameA] = some st ∧ ¬ Holds r.dst [nameA] st := by
  let r₁ := after reconcile (freshRun copyWorld [])
  let r₂ := after (syncRel []) r₁
  let r₃ := after reconcile r₂
  have h₁ := ok_of_returns reconcile (freshRun copyWorld []) (by decide +kernel)
  have h₂ := ok_of_returns (syncRel []) r₁ (by decide +kernel)
  have h₃ := ok_of_returns reconcile r₂ (by decide +kernel)
  have hgone : ¬ r₃.dst.Has [nameA] := by decide +kernel
  have hknown : r₃.state.lookup [nameA] = some (fileState ⟨0o644, 7, [1, 2]⟩) := by decide +kernel
  have hist : History (fun c r r' => Unmistakable r ∧ c.exec.run r = .ok () r')
      (freshRun copyWorld []) r₃ := by
    refine History.call (r := r₂) ?_ .reconcile ⟨by decide +kernel, h₃⟩
    refine History.call (r := r₁) ?_ (.rel []) ⟨by decide +kernel, h₂⟩
    exact History.call History.start .reconcile ⟨by decide +kernel, h₁⟩
  exact ⟨by decide +kernel, r₃, _, hist, hknown, fun h => hgone h.has⟩

/-- A `Reconcile`, a change of the file and a `SyncRel`. -/
theorem state_backed_rewritten : ∃ r : Run Trees, r.state.lookup [nameA] = some (fileState ⟨0o644, 9, [3]⟩) ∧
    Holds r.dst [nameA] (fileState ⟨0o644, 9, [3]⟩) := by
  let r₁ := after reconcile (freshRun copyWorld [])
  let r₂ := r₁.edit copyWorldGrown
  let r₃ := after (syncRel ['a']) r₂
  have hc : clean ['a'] = ⟨false, 0, [nameA]⟩ := by decide +kernel
  have h₁ := ok_of_returns reconcile (freshRun copyWorld []) (by decide +kernel)
  have h₃ := ok_of_returns (syncRel ['a']) r₂ (by decide +kernel)
  have hstep₁ : SoundStep .reconcile (freshRun copyWorld []) r₁ :=
    ⟨trivial, by decide +kernel, after_of_ok h₁⟩
  have hstep₃ : SoundStep (.rel ['a']) r₂ r₃ :=
    ⟨by simp [Call.AvoidsRoot, RootAlias, hc], by decide +kernel, after_of_ok h₃⟩
  have hist : History SoundStep (freshRun copyWorld []) r₃ := by
    refine History.call (r := r₂) (History.edit (r := r₁) ?_ copyWorldGrown) _ hstep₃
    exact History.call History.start _ hstep₁
  have hknown : r₃.state.lookup [nameA] = some (fileState ⟨0o644, 9, [3]⟩) := by decide +kernel
  have hfree : copyWorld.dstTree.LinkFree := by decide +kernel
  exact ⟨r₃, hknown, (state_backed rfl rfl hfree hist).2 _ _ hknown⟩

end Dockerset.Netfin

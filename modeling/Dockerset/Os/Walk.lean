import Dockerset.Os.World

/-!
# `filepath.WalkDir`

The walk visits a directory before its entries, the entries in the order
`os.ReadDir` returns them, and does not follow symbolic links: the root is
looked at with `Lstat`. The callback sees each entry, or the error of the
listing that failed, and can ask for a directory to be skipped.

The state of the callback contains the world (`HasWorld`); what else it holds
is the caller's. `World.pathMax` bounds how deep the walk can go.
-/

namespace Dockerset.Os
open Go Logic

/-- A program state with a world in it. -/
class HasWorld (D : outParam Type) (σ : Type) where
  world : σ → World D
  setWorld : σ → World D → σ

instance (D : Type) : HasWorld D (World D) := ⟨id, fun _ w => w⟩

/-- Run a system program inside a larger state. -/
def liftSys {D σ α : Type} [HasWorld D σ] (x : Sys D α) : EStateM Err σ α := fun s =>
  match x.run (HasWorld.world s) with
  | .ok a w => .ok a (HasWorld.setWorld s w)
  | .error e w => .error e (HasWorld.setWorld s w)

/-- What a callback asks for when it does not fail. -/
inductive Ctl where
  | next
  | skipDir
deriving DecidableEq

section Walk

variable {D σ : Type} [Disk D] [HasWorld D σ]

/-- `fs.WalkDirFunc`: the path below the root, and the entry's kind or the
error of reading it. -/
abbrev WalkFn (σ : Type) := Path → Except Err Kind → EStateM Err σ Ctl

/-- The loop over a directory's entries: `SkipDir` from an entry that is no
directory skips the rest. -/
def walkEntries (child : Name × Kind → EStateM Err σ Ctl) : List (Name × Kind) → EStateM Err σ Unit
  | [] => pure ()
  | e :: es => do
    match ← child e with
    | .skipDir => pure ()
    | .next => walkEntries child es

/-- The loop over entries of which none asks to skip the rest. -/
theorem wp_walkEntries {child : Name × Kind → EStateM Err σ Ctl} {E : Err → σ → Prop}
    {l : List (Name × Kind)} {s : σ} (I : List (Name × Kind) → σ → Prop) (h0 : I [] s)
    (step : ∀ done e rest t, l = done ++ e :: rest → I done t →
      WP (child e) (fun c t' => c = .next ∧ I (done ++ [e]) t') E t) :
    WP (walkEntries child l) (fun _ => I l) E s := by
  have go : ∀ rest done t, l = done ++ rest → I done t →
      WP (walkEntries child rest) (fun _ => I l) E t := by
    intro rest
    induction rest with
    | nil =>
      intro done t hl hi
      rw [walkEntries, WP.pure_iff]
      rwa [hl, List.append_nil]
    | cons e rest ih =>
      intro done t hl hi
      rw [walkEntries, WP.bind_iff]
      refine (step done e rest t hl hi).mono ?_ fun _ _ he => he
      rintro c t' ⟨rfl, hi'⟩
      exact ih (done ++ [e]) t' (by simp [hl]) hi'
  exact go l [] s rfl h0

/-- What follows the listing of a directory: its entries, or a second call of
the callback to report the listing's error. -/
def walkListed (fn : WalkFn σ) (p : Path) (child : Name × Kind → EStateM Err σ Ctl) :
    Except Err (List (Name × Kind)) → EStateM Err σ Ctl
  | .ok entries => do
    walkEntries child entries
    pure .next
  | .error e => do
    let _ ← fn p (.error e)
    pure .next

/-- One call of `walkDir`, given how to list the directory and how to walk an
entry of it. -/
def walkNode (fn : WalkFn σ) (p : Path) (k : Kind)
    (list : EStateM Err σ (Except Err (List (Name × Kind))))
    (child : Name × Kind → EStateM Err σ Ctl) : EStateM Err σ Ctl := do
  match ← fn p (.ok k) with
  | .skipDir => pure (if k = .dir then .next else .skipDir)
  | .next => if k ≠ .dir then pure .next else walkListed fn p child (← list)

def walkDir (fn : WalkFn σ) (side : Side) : Nat → Path → Kind → EStateM Err σ Ctl
  | 0, p, k => walkNode fn p k (pure (.error (.errno .ENAMETOOLONG))) fun _ => pure .next
  | fuel + 1, p, k =>
    walkNode fn p k (liftSys (attempt (readDir ⟨side, p⟩))) fun e => walkDir fn side fuel (p ++ [e.1]) e.2

/-- `filepath.WalkDir(root, fn)`. -/
def walk (fn : WalkFn σ) (root : Loc) : EStateM Err σ Unit := do
  let max := (HasWorld.world (← get)).pathMax
  match ← liftSys (attempt (lstat root)) with
  | .error e => discard (fn root.path (.error e))
  | .ok info => discard (walkDir fn root.side max root.path info.kind)

section Root

variable {fn : WalkFn σ} {root : Loc} {s : σ} {Q : Unit → σ → Prop} {E : Err → σ → Prop}

theorem wp_walk_ok {info : Info}
    (h : (liftSys (attempt (lstat root)) : EStateM Err σ _).run s = .ok (.ok info) s) :
    WP (walk fn root) Q E s ↔
      WP (walkDir fn root.side (HasWorld.world s).pathMax root.path info.kind) (fun _ => Q ()) E s := by
  rw [walk, WP.bind_iff, WP.get_iff, WP.bind_iff, WP, h]
  dsimp only
  rw [discard_eq_bind, WP.bind_iff]
  rfl

theorem wp_walk_error {e : Err}
    (h : (liftSys (attempt (lstat root)) : EStateM Err σ _).run s = .ok (.error e) s) :
    WP (walk fn root) Q E s ↔ WP (fn root.path (.error e)) (fun _ => Q ()) E s := by
  rw [walk, WP.bind_iff, WP.get_iff, WP.bind_iff, WP, h]
  dsimp only
  rw [discard_eq_bind, WP.bind_iff]
  rfl

/-- A root that is no directory: the callback sees it, and that is all. -/
theorem wp_walkDir_leaf {side : Side} {fuel : Nat} {p : Path} {k : Kind} {Q : Ctl → σ → Prop}
    (hk : k ≠ .dir) (h : WP (fn p (.ok k)) (fun c s' => Q c s') E s) :
    WP (walkDir fn side fuel p k) Q E s := by
  cases fuel <;>
  · rw [walkDir, walkNode, WP.bind_iff]
    refine h.mono (fun c s' hc => ?_) fun _ _ he => he
    cases c with
    | next => simpa [hk] using hc
    | skipDir => simpa [hk] using hc

end Root

end Walk

end Dockerset.Os

import Mathlib.Data.List.Pairwise

/-!
# Covers of a list

One pass over a list keeps the elements that no element kept before absorbs.
Whatever is dropped is absorbed by something that is kept, and what is kept
absorbs nothing kept after it. If no element of the list absorbs an earlier one
either, the kept elements do not absorb each other at all.
-/

namespace Dockerset.Data

variable {α : Type} {absorbs : α → α → Bool}

/-- One element of the pass. -/
def coverStep (absorbs : α → α → Bool) (out : List α) (x : α) : List α :=
  if out.any fun y => absorbs y x then out else out ++ [x]

/-- What the pass has kept of `done`. -/
structure IsCover (absorbs : α → α → Bool) (done out : List α) : Prop where
  sublist : out.Sublist done
  covered : ∀ x ∈ done, x ∈ out ∨ ∃ y ∈ out, absorbs y x = true
  pairwise : out.Pairwise fun y x => absorbs y x = false

theorem IsCover.step {done out : List α} (h : IsCover absorbs done out) (x : α) :
    IsCover absorbs (done ++ [x]) (coverStep absorbs out x) := by
  unfold coverStep
  split
  · next habs =>
    obtain ⟨y, hy, hyx⟩ := List.any_eq_true.1 habs
    refine ⟨h.sublist.trans (List.sublist_append_left _ _), fun z hz => ?_, h.pairwise⟩
    rcases List.mem_append.1 hz with hz | hz
    · exact h.covered z hz
    · rw [List.mem_singleton.1 hz]
      exact .inr ⟨y, hy, hyx⟩
  · next habs =>
    have hno : ∀ y ∈ out, absorbs y x = false := by
      intro y hy
      by_contra hyx
      exact habs (List.any_eq_true.2 ⟨y, hy, Bool.not_eq_false _ ▸ hyx⟩)
    refine ⟨h.sublist.append (List.Sublist.refl _), fun z hz => ?_, ?_⟩
    · rcases List.mem_append.1 hz with hz | hz
      · rcases h.covered z hz with hout | ⟨y, hy, hyz⟩
        · exact .inl (List.mem_append_left _ hout)
        · exact .inr ⟨y, List.mem_append_left _ hy, hyz⟩
      · exact .inl (List.mem_append_right _ hz)
    · refine List.pairwise_append.2 ⟨h.pairwise, List.pairwise_singleton _ _, fun y hy z hz => ?_⟩
      rw [List.mem_singleton.1 hz]
      exact hno y hy

/-- **The whole pass.** -/
theorem isCover_foldl (absorbs : α → α → Bool) (l : List α) :
    IsCover absorbs l (l.foldl (coverStep absorbs) []) := by
  have go : ∀ rest done out, IsCover absorbs done out →
      IsCover absorbs (done ++ rest) (rest.foldl (coverStep absorbs) out) := by
    intro rest
    induction rest with
    | nil =>
      intro done out h
      rw [List.append_nil]
      exact h
    | cons x rest ih =>
      intro done out h
      rw [List.append_cons]
      exact ih (done ++ [x]) _ (h.step x)
  exact go l [] [] ⟨List.Sublist.refl _, fun x hx => absurd hx List.not_mem_nil, .nil⟩

/-- Kept elements do not absorb each other, if no element absorbs an earlier one. -/
theorem IsCover.independent {done out : List α} (h : IsCover absorbs done out)
    (hord : done.Pairwise fun y x => absorbs x y = false) {x y : α} (hx : x ∈ out) (hy : y ∈ out)
    (hne : x ≠ y) : absorbs x y = false := by
  have hboth : out.Pairwise fun y x => absorbs y x = false ∧ absorbs x y = false :=
    h.pairwise.and (hord.sublist h.sublist)
  have : Std.Symm fun y x => absorbs y x = false ∧ absorbs x y = false := ⟨fun _ _ hxy => hxy.symm⟩
  exact (hboth.forall hx hy hne).1

end Dockerset.Data

import Dockerset.Data.Cover
import Dockerset.Netfin.SyncQuiet

/-!
# The order in which pending events are handled

`collapsePending` sorts the entries by path string and drops those at or below
an earlier tree entry: what is left is a cover of the entries. The string of a
path is a prefix of the strings of what lies below it, so in the result no entry
lies above an earlier one or below an earlier tree entry (`Apart`), and every
path an entry stood for is still taken care of (`Handles`).

The root is the exception: the string of the empty path is `"."`, and no other
path starts with `"./"`. A tree entry for the root absorbs nothing.
-/

namespace Dockerset.Netfin
open Go Os Data

/-- A path sorts before what lies below it. -/
theorem str_le_of_isPrefix {p q : Path} (hp : p ≠ []) (h : p <+: q) : p.str ≤ q.str := by
  by_cases he : p = q
  · rw [he]
  · have hpre := (hasPathPrefix_str hp).2 ⟨h, he⟩
    rw [hasPathPrefix, List.isPrefixOf_iff_prefix] at hpre
    exact not_lt.1 ((List.prefix_append p.str ['/']).trans hpre).le

instance : Std.Total pendingLe where
  total a b := by
    unfold pendingLe
    by_cases h : a.rel = b.rel
    · simp only [h, if_true]
      cases a.tree <;> cases b.tree <;> simp
    · simp only [h, Ne.symm h, if_false]
      exact le_total a.rel.str b.rel.str

instance : IsTrans PendingEntry pendingLe where
  trans a b c hab hbc := by
    unfold pendingLe at *
    by_cases h1 : a.rel = b.rel
    · by_cases h2 : b.rel = c.rel
      · simp only [h1, h2, if_true] at *
        cases ha : a.tree <;> cases hb : b.tree <;> cases hc : c.tree <;> simp_all
      · rw [h1]
        simp only [h2, if_false] at *
        exact hbc
    · rw [if_neg h1] at hab
      by_cases h2 : b.rel = c.rel
      · rw [← h2, if_neg h1]
        exact hab
      · rw [if_neg h2] at hbc
        have hne : a.rel ≠ c.rel := fun h =>
          h1 (Path.str_inj (le_antisymm hab (h ▸ hbc)))
        rw [if_neg hne]
        exact hab.trans hbc

theorem pendingLe_antisymm {a b : PendingEntry} (hab : pendingLe a b) (hba : pendingLe b a) : a = b := by
  unfold pendingLe at hab hba
  by_cases hrel : a.rel = b.rel
  · rw [if_pos hrel] at hab
    rw [if_pos hrel.symm] at hba
    obtain ⟨p, s⟩ := a
    obtain ⟨q, u⟩ := b
    cases s <;> cases u <;> simp_all
  · rw [if_neg hrel] at hab
    rw [if_neg (Ne.symm hrel)] at hba
    exact absurd (Path.str_inj (le_antisymm hab hba)) hrel

/-- The entries of a list, in order, are determined by which they are. -/
theorem insertionSort_pendingLe_eq {l l' : List PendingEntry} (h : l'.Perm l) :
    l'.insertionSort pendingLe = l.insertionSort pendingLe := by
  have hperm : (l'.insertionSort pendingLe).Perm (l.insertionSort pendingLe) :=
    (List.perm_insertionSort _ _).trans (h.trans (List.perm_insertionSort _ _).symm)
  refine hperm.eq_of_pairwise (fun a b _ _ hab hba => pendingLe_antisymm hab hba) ?_ ?_
  · exact List.pairwise_insertionSort pendingLe l'
  · exact List.pairwise_insertionSort pendingLe l

/-- The entry is at `p`, or it is a tree entry above `p`. -/
def Handles (e : PendingEntry) (p : Path) : Prop := e.rel = p ∨ (e.tree = true ∧ e.rel <+: p)

theorem Handles.below {e : PendingEntry} {p : Path} (h : Handles e p) : e.rel <+: p := by
  rcases h with rfl | h
  · exact List.prefix_rfl
  · exact h.2

/-- `i` may be handled before `j`. -/
def Apart (i j : PendingEntry) : Prop := ¬ j.rel <+: i.rel ∧ ¬ (i.tree = true ∧ i.rel <+: j.rel)

theorem absorbs_iff {i j : PendingEntry} (hi : i.rel ≠ []) :
    absorbs i j = true ↔ i.tree = true ∧ i.rel <+: j.rel := by
  rw [absorbs, Bool.and_eq_true, inStateTree_iff hi]

/-- Only an entry at or above another one, component by component, absorbs it. -/
theorem isPrefix_of_absorbs {i j : PendingEntry} (h : absorbs i j = true) :
    i.tree = true ∧ i.rel <+: j.rel := by
  by_cases hi : i.rel = []
  · rw [absorbs, Bool.and_eq_true] at h
    rw [hi]
    exact ⟨h.1, List.nil_prefix⟩
  · exact (absorbs_iff hi).1 h

theorem eq_of_root_absorbs {i j : PendingEntry} (hi : i.rel = []) (h : absorbs i j = true) :
    j.rel = i.rel := by
  rw [absorbs, Bool.and_eq_true, inStateTree, Bool.or_eq_true, beq_iff_eq, hi,
    hasPathPrefix_root] at h
  rw [hi]
  exact h.2.resolve_right (by simp)

section

variable {l : List PendingEntry}

theorem isCover_collapsePending (l : List PendingEntry) :
    IsCover absorbs (l.insertionSort pendingLe) (collapsePending l) := isCover_foldl absorbs _

theorem mem_of_mem_collapsePending {e : PendingEntry} (h : e ∈ collapsePending l) : e ∈ l :=
  (List.perm_insertionSort pendingLe l).mem_iff.1 ((isCover_collapsePending l).sublist.mem h)

theorem nodup_rel_insertionSort (hnd : (l.map PendingEntry.rel).Nodup) :
    (l.insertionSort pendingLe).Pairwise fun i j => i.rel ≠ j.rel :=
  List.pairwise_map.1 (((List.perm_insertionSort pendingLe l).map PendingEntry.rel).nodup_iff.2 hnd)

/-- In the order of the strings no path below the root lies above an earlier one. -/
theorem insertionSort_descends (hnd : (l.map PendingEntry.rel).Nodup) :
    (l.insertionSort pendingLe).Pairwise fun i j => j.rel ≠ [] → ¬ j.rel <+: i.rel := by
  have hsorted := List.pairwise_insertionSort pendingLe l
  refine (hsorted.and (nodup_rel_insertionSort hnd)).imp fun {i j} hij hj hpre => ?_
  obtain ⟨hle, hne⟩ := hij
  rw [pendingLe, if_neg hne] at hle
  exact hne (Path.str_inj (le_antisymm hle (str_le_of_isPrefix hj hpre)))

theorem insertionSort_absorbs (hnd : (l.map PendingEntry.rel).Nodup) :
    (l.insertionSort pendingLe).Pairwise fun i j => absorbs j i = false := by
  refine ((insertionSort_descends hnd).and (nodup_rel_insertionSort hnd)).imp fun {i j} hij => ?_
  obtain ⟨hdesc, hne⟩ := hij
  by_contra habs
  rw [Bool.not_eq_false] at habs
  by_cases hj : j.rel = []
  · exact hne (eq_of_root_absorbs hj habs)
  · exact hdesc hj (isPrefix_of_absorbs habs).2

end

/-- What `collapsePending` has made of the entries `done`. -/
structure Collapsed (done out : List PendingEntry) : Prop where
  apart : out.Pairwise Apart
  mem : ∀ e ∈ out, e ∈ done
  handled : ∀ e ∈ done, ∀ p, Handles e p → ∃ j ∈ out, Handles j p

/-- **`collapsePending`** of entries for distinct paths below the root. -/
theorem collapsed_collapsePending {l : List PendingEntry} (hne : ∀ e ∈ l, e.rel ≠ [])
    (hnd : (l.map PendingEntry.rel).Nodup) : Collapsed l (collapsePending l) := by
  have hcover := isCover_collapsePending l
  have hmem : ∀ e ∈ collapsePending l, e ∈ l := fun e he => mem_of_mem_collapsePending he
  refine ⟨?_, hmem, fun e he p hp => ?_⟩
  · have hdesc := (insertionSort_descends hnd).sublist hcover.sublist
    refine (hcover.pairwise.and hdesc).imp_of_mem fun {i j} hi hj hij => ?_
    refine ⟨hij.2 (hne j (hmem j hj)), fun habs => ?_⟩
    rw [← absorbs_iff (hne i (hmem i hi)), hij.1] at habs
    cases habs
  · rcases hcover.covered e ((List.perm_insertionSort pendingLe l).mem_iff.2 he) with hout | ⟨j, hj, habs⟩
    · exact ⟨e, hout, hp⟩
    · obtain ⟨htree, hpre⟩ := isPrefix_of_absorbs habs
      exact ⟨j, hj, .inr ⟨htree, hpre.trans hp.below⟩⟩

/-- `p` lies strictly above `q`. -/
def ProperAncestor (p q : Path) : Prop := p <+: q ∧ p ≠ q

instance (p q : Path) : Decidable (ProperAncestor p q) := inferInstanceAs (Decidable (_ ∧ _))

/-- **`collapsePending` computes a minimal cover** of entries for distinct paths, the
same one whatever order they come in. Only an ancestor, component by component,
absorbs an entry, and every ancestor but the root does. -/
theorem collapsePending_cover {l : List PendingEntry} (hnd : (l.map PendingEntry.rel).Nodup) :
    (∀ l', l'.Perm l → collapsePending l' = collapsePending l) ∧
    (∀ e ∈ collapsePending l, e ∈ l) ∧
    (∀ e ∈ l, e ∈ collapsePending l ∨
      ∃ a ∈ collapsePending l, a.tree = true ∧ ProperAncestor a.rel e.rel) ∧
    (∀ e ∈ collapsePending l, ¬ ∃ a ∈ collapsePending l,
      a.tree = true ∧ a.rel ≠ [] ∧ ProperAncestor a.rel e.rel) ∧
    ∀ a e, absorbs a e = true → a.rel = e.rel ∨ ProperAncestor a.rel e.rel := by
  have hcover := isCover_collapsePending l
  refine ⟨fun l' hl' => ?_, fun e he => mem_of_mem_collapsePending he, fun e he => ?_,
    fun e he ha => ?_, fun a e habs => ?_⟩
  · unfold collapsePending
    rw [insertionSort_pendingLe_eq hl']
  · rcases hcover.covered e ((List.perm_insertionSort pendingLe l).mem_iff.2 he) with hout | ⟨a, ha, habs⟩
    · exact .inl hout
    · by_cases hrel : a.rel = e.rel
      · -- entries are known by their paths
        have heq := List.inj_on_of_nodup_map hnd (mem_of_mem_collapsePending ha) he hrel
        exact .inl (heq ▸ ha)
      · obtain ⟨htree, hpre⟩ := isPrefix_of_absorbs habs
        exact .inr ⟨a, ha, htree, hpre, hrel⟩
  · obtain ⟨a, hout, htree, hroot, hpre, hne⟩ := ha
    have hind := hcover.independent (insertionSort_absorbs hnd) hout he fun h => hne (h ▸ rfl)
    rw [(absorbs_iff hroot).2 ⟨htree, hpre⟩] at hind
    cases hind
  · by_cases hrel : a.rel = e.rel
    · exact .inl hrel
    · exact .inr ⟨(isPrefix_of_absorbs habs).2, hrel⟩

/-- `a` with its subtree, `a/b` below it, and `a-b`, whose string comes between them. -/
theorem collapsePending_cover_three : ∃ a b c : Name,
    ¬ (∃ e ∈ collapsePending [⟨[a, b], false⟩, ⟨[c], false⟩, ⟨[a], true⟩],
      ∃ x ∈ collapsePending [⟨[a, b], false⟩, ⟨[c], false⟩, ⟨[a], true⟩],
        x.tree = true ∧ x.rel ≠ [] ∧ ProperAncestor x.rel e.rel) ∧
    collapsePending [⟨[a, b], false⟩, ⟨[c], false⟩, ⟨[a], true⟩] = [⟨[a], true⟩, ⟨[c], false⟩] := by
  refine ⟨⟨['a'], by decide⟩, ⟨['b'], by decide⟩, ⟨"a-b".toList, by decide⟩, ?_, by decide⟩
  rintro ⟨e, he, ha⟩
  exact (collapsePending_cover (by decide)).2.2.2.1 e he ha

/-- A tree entry for the root does not absorb the entry for `a`. -/
theorem root_entry_kept : ∃ a : Name, ∃ l : List PendingEntry, (l.map PendingEntry.rel).Nodup ∧
    ∃ r ∈ collapsePending l, ∃ e ∈ collapsePending l,
      r.tree = true ∧ e.rel = [a] ∧ ProperAncestor r.rel e.rel := by
  refine ⟨⟨['a'], by decide⟩, [⟨[], true⟩, ⟨[⟨['a'], by decide⟩], false⟩], by decide, ?_⟩
  refine ⟨⟨[], true⟩, by decide, ⟨[⟨['a'], by decide⟩], false⟩, by decide, rfl, rfl, by decide⟩

end Dockerset.Netfin
